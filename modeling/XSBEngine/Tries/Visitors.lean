import XSBEngine.Tries.Backtrack

/-!
# Answers for the choice points of an updated table

`traverse_variant_answer_trie`, `XSB/emu/tr_utils.c:755–839`, which `find_the_visitors`,
`XSB/emu/call_graph_xsb.c:785–905`, uses to collect the answers that backtracking would still
return.
-/

namespace XSBEngine.Tries

open List

/-! ### The traversal -/

/-- A cell of the stacks `tempstk` and `freeing_stack`: a node with its siblings, the header of a
hash table, or a bucket number. -/
inductive StackCell where
  | node (nodes : List BTNptr)
  | hashHdr (ht : BTHT)
  | hashOffset (bucket : Int)

/-- The loop over the choice points from `leafptr` to `rootptr`. -/
def pushPath : List ChoicePoint → List StackCell → List StackCell
  | [], tempstk => tempstk
  | .hash ht bucket :: leafptr, tempstk =>
    pushPath leafptr (.hashOffset bucket :: .hashHdr ht :: tempstk)
  | .node opfail :: leafptr, tempstk => pushPath leafptr (.node opfail :: tempstk)

/-- The cells are moved from `tempstk` to `freeing_stack`. -/
def pushReversed : List StackCell → List StackCell → List StackCell
  | [], freeingStack => freeingStack
  | c :: tempstk, freeingStack => pushReversed tempstk (c :: freeingStack)

/-- A node whose child is visited. -/
def BTN.hasChild (n : BTN) : Bool := !n.isLeafNode && decide (n.child ≠ .chain [])

/-- The cells for a child. -/
def Child.cells : Child → List StackCell
  | .chain nodes => [.node nodes]
  | .hash ht => [.hashHdr ht, .hashOffset firstHashNode]

/-- The loop over `freeing_stack`. The answer list starts with the last answer. -/
def traverseLoop (t : Trie) : Nat → List StackCell → List BTNptr → Option (List BTNptr)
  | 0, _, _ => none
  | _ + 1, [], lastALN => some lastALN
  | n + 1, .hashHdr ht :: .hashOffset bucket :: stack, lastALN =>
    let bucket := findNextNonemptyBucket ht bucket
    if bucket = noMoreInHash then traverseLoop t n stack lastALN
    else
      traverseLoop t n
        (.node (ht.chainAt bucket) :: .hashHdr ht :: .hashOffset bucket :: stack) lastALN
  | n + 1, .node (rnod :: sibling) :: stack, lastALN =>
    let stack := if sibling = [] then stack else .node sibling :: stack
    if (t.node rnod).hasChild then traverseLoop t n ((t.node rnod).child.cells ++ stack) lastALN
    else traverseLoop t n stack (rnod :: lastALN)
  | _ + 1, _, _ => none

/-- `traverse_variant_answer_trie`, from the choice points above that of the root. The array
`tempstk` has 1280 cells, which is looked at when it is filled. -/
def traverseVariantAnswerTrie (t : Trie) (n : Nat) (leafptr : List ChoicePoint) :
    Option (Except String (List BTNptr)) :=
  let tempstk := pushPath leafptr []
  if 1280 < tempstk.length then none
  else if tempstk.length = 1280 then
    some (.error
      "Ran out of reversal stack space while logging for incremental tabling update\n")
  else (traverseLoop t n (pushReversed tempstk []) []).map .ok

/-! ### What is visited -/

/-- The leaves below nodes, and the nodes without children. -/
inductive Walk (t : Trie) : List BTNptr → List BTNptr → Prop where
  | nil : Walk t [] []
  | leaf {p : BTNptr} {rest l : List BTNptr} :
      (t.node p).hasChild = false → Walk t rest l → Walk t (p :: rest) (p :: l)
  | inner {p : BTNptr} {rest l : List BTNptr} :
      (t.node p).hasChild = true → Walk t ((t.node p).child.nodes ++ rest) l →
      Walk t (p :: rest) l

/-- A node at or below another one. -/
inductive Below (t : Trie) : BTNptr → BTNptr → Prop where
  | refl (p : BTNptr) : Below t p p
  | child {p c q : BTNptr} : (t.node p).hasChild = true → c ∈ (t.node p).child.nodes →
      Below t c q → Below t p q

/-- No node that is left at the choice points is deleted. -/
def NothingDeleted (t : Trie) (breg : List ChoicePoint) : Prop :=
  ∀ p ∈ pending breg, ∀ q, Below t p q → ¬(t.node q).Fails

variable {t : Trie} {p q : BTNptr} {nodes rest l l' ps w as : List BTNptr}
  {breg : List ChoicePoint} {ht : BTHT}

/-- Induction over nodes, their siblings and what is below them. -/
theorem TrieWF.nodes_induction (hwf : TrieWF t) {D : List BTNptr → Prop} (nil : D [])
    (cons : ∀ p rest, t.Live p → (∀ q ∈ rest, t.Live q) → D rest →
      D ((t.node p).child.nodes ++ rest) → D (p :: rest))
    (hlive : ∀ p ∈ nodes, t.Live p) : D nodes := by
  have hnode : ∀ (n : Nat) p w, AtPath t w p → w.length + n ≥ t.nextStruct →
      ∀ rest, (∀ q ∈ rest, t.Live q) → D rest → D (p :: rest) := by
    intro n
    induction n with
    | zero =>
      intro p w hw hn
      have hlt := hw.length_lt hwf
      omega
    | succ n ih =>
      intro p w hw hn rest hrest hD
      apply cons p rest (hw.live hwf) hrest hD
      have hchildren : ∀ cs : List BTNptr, (∀ c ∈ cs, c ∈ (t.node p).child.nodes) →
          D (cs ++ rest) := by
        intro cs
        induction cs with
        | nil => exact fun _ => hD
        | cons c cs ihcs =>
          intro hcs
          have hc := hcs c mem_cons_self
          have hcs' := fun c hc => hcs c (mem_cons_of_mem _ hc)
          have hlen : (w ++ [(t.node c).symbol]).length + n ≥ t.nextStruct := by
            rw [length_append, length_singleton]
            omega
          apply ih c _ (hw.child hwf hc) hlen (cs ++ rest) _ (ihcs hcs')
          intro q hq
          rcases mem_append.mp hq with hq | hq
          · exact (hwf.child_live p (hw.live hwf) q (hcs' q hq)).1
          · exact hrest q hq
      exact hchildren _ fun _ hc => hc
  induction nodes with
  | nil => exact nil
  | cons p rest ih =>
    obtain ⟨w, hw⟩ := hwf.reach p (hlive p mem_cons_self)
    have hrest := fun q hq => hlive q (mem_cons_of_mem _ hq)
    exact hnode t.nextStruct p w hw (Nat.le_add_left _ _) rest hrest (ih hrest)

theorem Walk.unique (h : Walk t nodes l) (h' : Walk t nodes l') : l = l' := by
  induction h generalizing l' with
  | nil => cases h'; rfl
  | leaf hc _ ih =>
    cases h' with
    | leaf _ h' => rw [ih h']
    | inner hc' => rw [hc] at hc'; cases hc'
  | inner hc _ ih =>
    cases h' with
    | leaf hc' => rw [hc] at hc'; cases hc'
    | inner _ h' => exact ih h'

theorem Walk.split {nodes' : List BTNptr} (h : Walk t (nodes ++ nodes') l) :
    ∃ l1 l2, Walk t nodes l1 ∧ Walk t nodes' l2 ∧ l = l1 ++ l2 := by
  generalize hall : nodes ++ nodes' = all at h
  induction h generalizing nodes with
  | nil =>
    obtain ⟨rfl, rfl⟩ := append_eq_nil_iff.mp hall
    exact ⟨[], [], .nil, .nil, rfl⟩
  | @leaf p rest l hc hrest ih =>
    cases nodes with
    | nil =>
      rw [nil_append] at hall
      rw [hall]
      exact ⟨[], _, .nil, .leaf hc hrest, rfl⟩
    | cons q nodes =>
      obtain ⟨rfl, hrest'⟩ := List.cons.inj hall
      obtain ⟨l1, l2, h1, h2, rfl⟩ := ih hrest'
      exact ⟨_, l2, .leaf hc h1, h2, rfl⟩
  | @inner p rest l hc hrest ih =>
    cases nodes with
    | nil =>
      rw [nil_append] at hall
      rw [hall]
      exact ⟨[], _, .nil, .inner hc hrest, rfl⟩
    | cons q nodes =>
      obtain ⟨rfl, hrest'⟩ := List.cons.inj hall
      have hall' : (t.node q).child.nodes ++ nodes ++ nodes' = (t.node q).child.nodes ++ rest := by
        rw [append_assoc]
        exact congrArg _ hrest'
      obtain ⟨l1, l2, h1, h2, rfl⟩ := ih hall'
      exact ⟨l1, l2, .inner hc h1, h2, rfl⟩

/-- A node that is not a leaf and has a child has children. -/
theorem AnswerTrie.children (h : AnswerTrie t) (hp : t.Live p) (hc : (t.node p).hasChild = true) :
    (t.node p).child.nodes ≠ [] := by
  rw [BTN.hasChild, Bool.and_eq_true, Bool.not_eq_true', decide_eq_true_eq] at hc
  exact (h.inner p hp hc.1).resolve_right fun h => hc.2 h.2

theorem Walk.ne_nil (h : AnswerTrie t) (hw : Walk t nodes l) (hlive : ∀ p ∈ nodes, t.Live p)
    (hne : nodes ≠ []) : l ≠ [] := by
  induction hw with
  | nil => exact absurd rfl hne
  | leaf => exact cons_ne_nil _ _
  | @inner p rest l hc _ ih =>
    have hp := hlive p mem_cons_self
    apply ih
    · intro q hq
      rcases mem_append.mp hq with hq | hq
      · exact (h.wf.child_live p hp q hq).1
      · exact hlive q (mem_cons_of_mem _ hq)
    · exact append_ne_nil_of_left_ne_nil (h.children hp hc) _

/-- The answers are among what is visited, and are all of it just if no node is deleted. -/
theorem AnswerTrie.walk (h : AnswerTrie t) (hlive : ∀ p ∈ nodes, t.Live p) :
    ∃ l as, Walk t nodes l ∧ Answers t nodes as ∧ as.length ≤ l.length ∧
      ((∀ p ∈ nodes, ∀ q, Below t p q → ¬(t.node q).Fails) → as = l) ∧
      (as.length = l.length → ∀ p ∈ nodes, ∀ q, Below t p q → ¬(t.node q).Fails) := by
  apply h.wf.nodes_induction _ _ hlive
  · exact ⟨[], [], .nil, .nil, le_rfl, fun _ => rfl, fun _ p hp => absurd hp not_mem_nil⟩
  intro p rest hp hrest hDrest hDchild
  obtain ⟨l, as, hw, ha, hle, hall, hnone⟩ := hDrest
  obtain ⟨l', as', hw', ha', hle', hall', hnone'⟩ := hDchild
  cases hc : (t.node p).hasChild with
  | false =>
    have hbelow : ∀ q, Below t p q → q = p := by
      intro q hq
      cases hq with
      | refl => rfl
      | child hc' => rw [hc] at hc'; cases hc'
    by_cases hfails : (t.node p).Fails
    · refine ⟨p :: l, as, .leaf hc hw, .fails hfails ha, ?_, fun hno => ?_, fun hlen => ?_⟩
      · rw [length_cons]
        omega
      · exact absurd hfails (hno p mem_cons_self p (.refl p))
      · rw [length_cons] at hlen
        omega
    · have hleaf : (t.node p).isLeafNode = true := by
        by_contra hleaf
        have hleaf := eq_false_of_ne_true hleaf
        rw [BTN.hasChild, hleaf, Bool.not_false, Bool.true_and, decide_eq_false_iff_not,
          not_not] at hc
        rcases h.inner p hp hleaf with hne | ⟨hf, -⟩
        · rw [hc] at hne
          exact hne rfl
        · exact hfails hf
      refine ⟨p :: l, p :: as, .leaf hc hw, .leaf hfails hleaf ha, ?_, fun hno => ?_,
        fun hlen => ?_⟩
      · exact Nat.succ_le_succ hle
      · rw [hall fun q hq => hno q (mem_cons_of_mem _ hq)]
      · apply forall_mem_cons.mpr ⟨_, hnone (Nat.succ.inj hlen)⟩
        intro q hq
        rw [hbelow q hq]
        exact hfails
  | true =>
    have hinner : (t.node p).isLeafNode = false := by
      rw [BTN.hasChild, Bool.and_eq_true, Bool.not_eq_true'] at hc
      exact hc.1
    by_cases hfails : (t.node p).Fails
    · -- what is below a deleted node is visited, but not returned
      obtain ⟨l1, l2, h1, h2, rfl⟩ := hw'.split
      cases hw.unique h2
      have hne := h1.ne_nil h (fun c hc' => (h.wf.child_live p hp c hc').1) (h.children hp hc)
      have hpos := length_pos_iff.mpr hne
      refine ⟨l1 ++ l, as, .inner hc hw', .fails hfails ha, ?_, fun hno => ?_, fun hlen => ?_⟩
      · rw [length_append]
        omega
      · exact absurd hfails (hno p mem_cons_self p (.refl p))
      · rw [length_append] at hlen
        omega
    · refine ⟨l', as', .inner hc hw', .inner hfails hinner ha', hle', fun hno => hall' ?_,
        fun hlen => ?_⟩
      · intro q hq
        rcases mem_append.mp hq with hq | hq
        · exact fun r hr => hno p mem_cons_self r (.child hc hq hr)
        · exact hno q (mem_cons_of_mem _ hq)
      · have hboth := hnone' hlen
        apply forall_mem_cons.mpr ⟨_, fun q hq => hboth q (mem_append_right _ hq)⟩
        intro q hq
        cases hq with
        | refl => exact hfails
        | child _ hcm hq => exact hboth _ (mem_append_left _ hcm) q hq

/-! ### No answer twice -/

/-- A node whose path starts with that of another one. -/
def Under (t : Trie) (p r : BTNptr) : Prop :=
  ∃ v w, AtPath t v p ∧ AtPath t w r ∧ v <+: w

/-- Nodes with nothing below both. -/
def Apart (t : Trie) (p q : BTNptr) : Prop := ∀ r, Under t p r → ¬Under t q r

theorem TrieWF.under_refl (hwf : TrieWF t) (hp : t.Live p) : Under t p p := by
  obtain ⟨w, hw⟩ := hwf.reach p hp
  exact ⟨w, w, hw, hw, prefix_rfl⟩

theorem TrieWF.under_of_child (hwf : TrieWF t) {c r : BTNptr} (hp : t.Live p)
    (hc : c ∈ (t.node p).child.nodes) (hr : Under t c r) : Under t p r := by
  obtain ⟨v, w, hv, hw, hpre⟩ := hr
  obtain ⟨u, hu⟩ := hwf.reach p hp
  have hchild := hu.child hwf hc
  rw [hv.path_unique hchild] at hpre
  exact ⟨u, w, hu, hw, (prefix_append u _).trans hpre⟩

/-- The children of a node have nothing in common. -/
theorem TrieWF.children_apart (hwf : TrieWF t) (hp : t.Live p) :
    (t.node p).child.nodes.Pairwise (Apart t) := by
  obtain ⟨u, hu⟩ := hwf.reach p hp
  apply List.Nodup.pairwise_of_forall_ne (hwf.child_ok p hp).nodup
  intro c hc c' hc' hne r ⟨v, w, hv, hw, hpre⟩ ⟨v', w', hv', hw', hpre'⟩
  apply hne
  apply (hwf.child_ok p hp).symbol_inj hc hc'
  rw [hw'.path_unique hw, hv'.path_unique (hu.child hwf hc')] at hpre'
  rw [hv.path_unique (hu.child hwf hc)] at hpre
  have hboth := prefix_of_prefix_length_le hpre hpre' (by simp)
  have heq := hboth.eq_of_length (by simp)
  exact singleton_inj.mp (append_cancel_left heq)

theorem TrieWF.answers_nodup (hwf : TrieWF t) (hlive : ∀ p ∈ nodes, t.Live p) :
    ∀ as, Answers t nodes as → (∀ a ∈ as, ∃ p ∈ nodes, Under t p a) ∧
      (nodes.Pairwise (Apart t) → as.Nodup) := by
  apply hwf.nodes_induction _ _ hlive
  · intro as has
    cases has
    exact ⟨fun a ha => absurd ha not_mem_nil, fun _ => nodup_nil⟩
  intro p rest hp hrest hDrest hDchild as has
  have htail : ∀ {as : List BTNptr}, (∀ a ∈ as, ∃ q ∈ rest, Under t q a) →
      ∀ a ∈ as, ∃ q ∈ p :: rest, Under t q a := by
    intro as h a ha
    obtain ⟨q, hq, hu⟩ := h a ha
    exact ⟨q, mem_cons_of_mem _ hq, hu⟩
  cases has with
  | fails _ has =>
    obtain ⟨hunder, hnodup⟩ := hDrest as has
    exact ⟨htail hunder, fun h => hnodup (pairwise_cons.mp h).2⟩
  | @leaf _ _ as _ _ has =>
    obtain ⟨hunder, hnodup⟩ := hDrest as has
    have hpp := hwf.under_refl hp
    refine ⟨forall_mem_cons.mpr ⟨⟨p, mem_cons_self, hpp⟩, htail hunder⟩, fun h => ?_⟩
    obtain ⟨hap, hpw⟩ := pairwise_cons.mp h
    refine nodup_cons.mpr ⟨fun hmem => ?_, hnodup hpw⟩
    obtain ⟨q, hq, hu⟩ := hunder p hmem
    exact hap q hq p hpp hu
  | inner _ _ has =>
    obtain ⟨hunder, hnodup⟩ := hDchild as has
    constructor
    · intro a ha
      obtain ⟨q, hq, hu⟩ := hunder a ha
      rcases mem_append.mp hq with hq | hq
      · exact ⟨p, mem_cons_self, hwf.under_of_child hp hq hu⟩
      · exact ⟨q, mem_cons_of_mem _ hq, hu⟩
    · intro h
      obtain ⟨hap, hpw⟩ := pairwise_cons.mp h
      apply hnodup
      rw [pairwise_append]
      refine ⟨hwf.children_apart hp, hpw, fun c hc q hq r hr => ?_⟩
      exact hap q hq r (hwf.under_of_child hp hc hr)

/-! ### The loops -/

/-- The cells of a choice point on `freeing_stack`. -/
def ChoicePoint.cells : ChoicePoint → List StackCell
  | .node opfail => [.node opfail]
  | .hash ht bucket => [.hashHdr ht, .hashOffset bucket]

/-- What a child adds to the nodes that are left. -/
def Child.entry : Child → ChoicePoint
  | .chain nodes => .node nodes
  | .hash ht => .hash ht firstHashNode

/-- Entries of the stack whose nodes are in use, and chains that are not empty. -/
def EntriesOK (t : Trie) (es : List ChoicePoint) : Prop :=
  ∀ e ∈ es, e ≠ .node [] ∧ ∀ p ∈ e.nodes, t.Live p

theorem Child.entry_cells (child : Child) : child.entry.cells = child.cells := by
  cases child <;> rfl

theorem Child.entry_nodes (child : Child) : child.entry.nodes = child.nodes := by
  cases child <;> rfl

theorem pushPath_eq (breg : List ChoicePoint) (tempstk : List StackCell) :
    pushPath breg tempstk = (breg.flatMap ChoicePoint.cells).reverse ++ tempstk := by
  induction breg generalizing tempstk with
  | nil => rfl
  | cons cp breg ih =>
    cases cp <;> simp [pushPath, ih, ChoicePoint.cells]

theorem pushReversed_eq (tempstk freeingStack : List StackCell) :
    pushReversed tempstk freeingStack = tempstk.reverse ++ freeingStack := by
  induction tempstk generalizing freeingStack with
  | nil => rfl
  | cons c tempstk ih => simp [pushReversed, ih]

/-- The two moves leave the cells in the order of the choice points. -/
theorem pushReversed_pushPath (breg : List ChoicePoint) :
    pushReversed (pushPath breg []) [] = breg.flatMap ChoicePoint.cells := by
  rw [pushReversed_eq, pushPath_eq]
  simp

theorem ChoicePointsOK.entries (h : ChoicePointsOK t breg) : EntriesOK t breg := by
  intro cp hcp
  have hok := h cp hcp
  cases cp with
  | node opfail => exact ⟨fun he => hok.1 (ChoicePoint.node.inj he), hok.2.2⟩
  | hash ht hashOffset =>
    refine ⟨ChoicePoint.noConfusion, fun p hp => hok.2 p ?_⟩
    obtain ⟨b, hb, hpb⟩ := mem_flatten.mp hp
    exact mem_flatten.mpr ⟨b, mem_of_mem_drop hb, hpb⟩

variable {es : List ChoicePoint}

theorem EntriesOK.cons {e : ChoicePoint} (h : EntriesOK t es)
    (hne : e ≠ .node []) (hlive : ∀ p ∈ e.nodes, t.Live p) : EntriesOK t (e :: es) :=
  forall_mem_cons.mpr ⟨⟨hne, hlive⟩, h⟩

theorem EntriesOK.tail {e : ChoicePoint} (h : EntriesOK t (e :: es)) :
    EntriesOK t es :=
  (forall_mem_cons.mp h).2

theorem traverseLoop_node (n : Nat) (rnod : BTNptr) (sibling as : List BTNptr)
    (stack : List StackCell) :
    traverseLoop t (n + 1) (.node (rnod :: sibling) :: stack) as =
      if (t.node rnod).hasChild then
        traverseLoop t n ((t.node rnod).child.cells ++
          (if sibling = [] then stack else .node sibling :: stack)) as
      else traverseLoop t n (if sibling = [] then stack else .node sibling :: stack)
        (rnod :: as) := rfl

theorem traverseLoop_hash (n : Nat) (bucket : Int) (as : List BTNptr) (stack : List StackCell) :
    traverseLoop t (n + 1) (.hashHdr ht :: .hashOffset bucket :: stack) as =
      if findNextNonemptyBucket ht bucket = noMoreInHash then traverseLoop t n stack as
      else
        traverseLoop t n (.node (ht.chainAt (findNextNonemptyBucket ht bucket)) :: .hashHdr ht ::
          .hashOffset (findNextNonemptyBucket ht bucket) :: stack) as := rfl

/-- The entries after the first node of a chain. -/
def siblingEntries (sibling : List BTNptr) (es : List ChoicePoint) : List ChoicePoint :=
  if sibling = [] then es else .node sibling :: es

theorem sibling_entries {sibling : List BTNptr} (h : EntriesOK t (.node (p :: sibling) :: es)) :
    EntriesOK t (siblingEntries sibling es) ∧
      pending (siblingEntries sibling es) = sibling ++ pending es := by
  rw [siblingEntries]
  split
  next hs =>
    rw [hs]
    exact ⟨h.tail, rfl⟩
  next hs =>
    refine ⟨h.tail.cons (fun he => hs (ChoicePoint.node.inj he)) fun q hq => ?_, rfl⟩
    exact (h _ mem_cons_self).2 q (mem_cons_of_mem _ hq)

theorem sibling_cells (sibling : List BTNptr) (es : List ChoicePoint) :
    (siblingEntries sibling es).flatMap ChoicePoint.cells =
      if sibling = [] then es.flatMap ChoicePoint.cells
      else .node sibling :: es.flatMap ChoicePoint.cells := by
  rw [siblingEntries]
  split <;> rfl

/-- Tables that are used up are left before the next node is visited. -/
theorem traverseLoop_front (es : List ChoicePoint) (h : EntriesOK t es) :
    ∃ k, pending es = [] ∧
        (∀ n as, traverseLoop t (n + k) (es.flatMap ChoicePoint.cells) as =
          traverseLoop t n [] as) ∨
      ∃ p sibling es', EntriesOK t (.node (p :: sibling) :: es') ∧
        pending es = p :: sibling ++ pending es' ∧
        ∀ n as, traverseLoop t (n + k) (es.flatMap ChoicePoint.cells) as =
          traverseLoop t n (.node (p :: sibling) :: es'.flatMap ChoicePoint.cells) as := by
  induction es with
  | nil => exact ⟨0, .inl ⟨rfl, fun _ _ => rfl⟩⟩
  | cons e es ih =>
    cases e with
    | node opfail =>
      cases opfail with
      | nil => exact absurd rfl (h _ mem_cons_self).1
      | cons p sibling => exact ⟨0, .inr ⟨p, sibling, es, h, rfl, fun _ _ => rfl⟩⟩
    | hash ht bucket =>
      rcases findNextNonemptyBucket_spec ht bucket with ⟨hno, hnil⟩ | ⟨i, hi, hne, -, hnodes⟩
      · have hpending : pending (.hash ht bucket :: es) = pending es := by
          rw [pending, flatMap_cons, hnil]
          rfl
        have hstep : ∀ n as, traverseLoop t (n + 1)
            ((ChoicePoint.hash ht bucket :: es).flatMap ChoicePoint.cells) as =
              traverseLoop t n (es.flatMap ChoicePoint.cells) as := by
          intro n as
          rw [flatMap_cons]
          apply (traverseLoop_hash n bucket as _).trans
          rw [if_pos hno]
          rfl
        obtain ⟨k, ⟨hp, hloop⟩ | ⟨p, sibling, es', hes, hp, hloop⟩⟩ := ih h.tail
        · exact ⟨k + 1, .inl ⟨hpending.trans hp, fun n as => (hstep _ as).trans (hloop n as)⟩⟩
        · exact ⟨k + 1, .inr ⟨p, sibling, es', hes, hpending.trans hp,
            fun n as => (hstep _ as).trans (hloop n as)⟩⟩
      · have hlive := (h _ mem_cons_self).2
        rw [hnodes] at hlive
        have hchain : EntriesOK t (.node (ht.chainAt i) :: .hash ht i :: es) := by
          apply EntriesOK.cons _ (fun he => hne (ChoicePoint.node.inj he))
          · exact fun p hp => hlive p (mem_append_left _ hp)
          · apply h.tail.cons ChoicePoint.noConfusion
            exact fun p hp => hlive p (mem_append_right _ hp)
        have hpending : pending (.hash ht bucket :: es) =
            ht.chainAt i ++ pending (.hash ht i :: es) := by
          rw [pending, pending, flatMap_cons, flatMap_cons, hnodes, append_assoc]
        have hstep : ∀ n as, traverseLoop t (n + 1)
            ((ChoicePoint.hash ht bucket :: es).flatMap ChoicePoint.cells) as =
              traverseLoop t n (.node (ht.chainAt i) ::
                (ChoicePoint.hash ht i :: es).flatMap ChoicePoint.cells) as := by
          intro n as
          rw [flatMap_cons]
          apply (traverseLoop_hash n bucket as _).trans
          rw [hi, if_neg (by rw [noMoreInHash]; omega)]
          rfl
        cases hc : ht.chainAt i with
        | nil => exact absurd hc hne
        | cons p sibling =>
          rw [hc] at hchain hpending hstep
          exact ⟨1, .inr ⟨p, sibling, _, hchain, hpending, hstep⟩⟩

/-- The loop adds what is visited below the entries of the stack. -/
theorem traverseLoop_spec (h : AnswerTrie t) (hes : EntriesOK t es)
    (hw : Walk t (pending es) l) :
    ∃ N, ∀ n ≥ N, ∀ as, traverseLoop t n (es.flatMap ChoicePoint.cells) as =
      some (l.reverse ++ as) := by
  generalize hp : pending es = nodes at hw
  induction hw generalizing es with
  | nil =>
    obtain ⟨k, ⟨-, hloop⟩ | ⟨p, sibling, es', -, hp', -⟩⟩ := traverseLoop_front es hes
    · refine ⟨k + 1, fun n hn as => ?_⟩
      obtain ⟨m, rfl⟩ := Nat.exists_eq_add_of_le' hn
      rw [← Nat.add_assoc, Nat.add_right_comm, hloop]
      rfl
    · rw [hp] at hp'
      cases hp'
  | @leaf p rest l hc _ ih =>
    obtain ⟨k, ⟨hp', -⟩ | ⟨q, sibling, es', hes', hp', hloop⟩⟩ := traverseLoop_front es hes
    · rw [hp] at hp'
      cases hp'
    · rw [hp] at hp'
      obtain ⟨rfl, hrest⟩ := List.cons.inj hp'
      obtain ⟨N, hN⟩ := ih (sibling_entries hes').1 ((sibling_entries hes').2.trans hrest.symm)
      refine ⟨N + 1 + k, fun n hn as => ?_⟩
      obtain ⟨m, rfl⟩ := Nat.exists_eq_add_of_le' hn
      have hsum : m + (N + 1 + k) = m + N + 1 + k := by omega
      rw [hsum, hloop, traverseLoop_node, hc, if_neg Bool.false_ne_true, ← sibling_cells,
        hN _ (Nat.le_add_left _ _), reverse_cons, append_assoc]
      rfl
  | @inner p rest l hc _ ih =>
    obtain ⟨k, ⟨hp', -⟩ | ⟨q, sibling, es', hes', hp', hloop⟩⟩ := traverseLoop_front es hes
    · rw [hp] at hp'
      cases hp'
    · rw [hp] at hp'
      obtain ⟨rfl, hrest⟩ := List.cons.inj hp'
      have hlive := (hes' _ mem_cons_self).2 p mem_cons_self
      have hentry : EntriesOK t ((t.node p).child.entry :: siblingEntries sibling es') := by
        apply (sibling_entries hes').1.cons
        · intro he
          apply h.children hlive hc
          rw [← Child.entry_nodes, he]
          rfl
        · rw [Child.entry_nodes]
          exact fun c hc => (h.wf.child_live p hlive c hc).1
      have hpending : pending ((t.node p).child.entry :: siblingEntries sibling es') =
          (t.node p).child.nodes ++ rest := by
        rw [pending, flatMap_cons, Child.entry_nodes, hrest]
        exact congrArg _ (sibling_entries hes').2
      obtain ⟨N, hN⟩ := ih hentry hpending
      refine ⟨N + 1 + k, fun n hn as => ?_⟩
      obtain ⟨m, rfl⟩ := Nat.exists_eq_add_of_le' hn
      have hsum : m + (N + 1 + k) = m + N + 1 + k := by omega
      rw [hsum, hloop, traverseLoop_node, hc, if_pos rfl, ← sibling_cells, ← Child.entry_cells]
      exact hN _ (Nat.le_add_left _ _) as

/-! ### Agreement -/

/-- The number of cells of `tempstk` for a choice point. -/
def ChoicePoint.numCells (cp : ChoicePoint) : Nat := cp.cells.length

/-- The traversal from the choice points `breg` ends with the answers that failing into them
returns, where `ps` have been returned before. -/
def CollectsRemaining (t : Trie) (ps : List BTNptr) (breg : List ChoicePoint) : Prop :=
  ∃ l as N, Yields t .fail breg as ∧
    (∀ n ≥ N, traverseVariantAnswerTrie t n breg = some (.ok l)) ∧ l.Perm as ∧ (ps ++ l).Nodup

theorem pushPath_length (breg : List ChoicePoint) :
    (pushPath breg []).length = (breg.map ChoicePoint.numCells).sum := by
  rw [pushPath_eq, append_nil, length_reverse, length_flatMap]
  rfl

/-- All answers of a call are different. -/
theorem Backtracks.nodup (h : AnswerTrie t) {lpcreg : Code} (hb : Backtracks t ps lpcreg breg)
    (hy : Yields t lpcreg breg as) : (ps ++ as).Nodup := by
  obtain ⟨hroot, -, -⟩ := h.wf.root_live h.root.1
  have hlive : ∀ p ∈ (t.node t.root).child.nodes, t.Live p :=
    fun p hp => (h.wf.child_live _ hroot p hp).1
  obtain ⟨-, all, -, hall, -⟩ := h.walk hlive
  have hready := h.start_ready
  rw [append_nil] at hready
  obtain ⟨as', hy', rfl⟩ := hb.yields (hall.yields h hready)
  rw [hy.unique hy']
  exact (h.wf.answers_nodup hlive _ hall).2 (h.wf.children_apart hroot)

/-- The traversal collects exactly the answers that are still returned just if the array for the
choice points is not filled and nothing that is left is deleted. -/
theorem collectsRemaining_iff (h : AnswerTrie t) (hb : Backtracks t ps .fail breg) :
    CollectsRemaining t ps breg ↔
      (breg.map ChoicePoint.numCells).sum < 1280 ∧ NothingDeleted t breg := by
  obtain ⟨nodes, hcps, rfl⟩ := hb.ready h
  have hes := hcps.entries
  have hlive : ∀ p ∈ pending breg, t.Live p := by
    intro p hp
    obtain ⟨e, he, hpe⟩ := mem_flatMap.mp hp
    exact (hes e he).2 p hpe
  obtain ⟨l, as, hw, ha, -, hall, hnone⟩ := h.walk hlive
  have hy : Yields t .fail breg as := ha.yields h ⟨hcps, rfl⟩
  obtain ⟨N, hN⟩ := traverseLoop_spec h hes hw
  constructor
  · rintro ⟨l', as', N', hy', hl', hperm, -⟩
    have hrun := hl' (N + N') (Nat.le_add_left _ _)
    rw [traverseVariantAnswerTrie, pushPath_length] at hrun
    have hlt : (breg.map ChoicePoint.numCells).sum < 1280 := by
      by_contra hge
      split at hrun
      · cases hrun
      · rw [if_pos (by omega)] at hrun
        cases hrun
    rw [if_neg (by omega), if_neg (by omega), pushReversed_pushPath,
      hN _ (Nat.le_add_right _ _)] at hrun
    cases hrun
    refine ⟨hlt, hnone ?_⟩
    rw [hy.unique hy', ← hperm.length_eq, append_nil, length_reverse]
  · rintro ⟨hlt, hnd⟩
    have heq := hall hnd
    subst heq
    refine ⟨as.reverse, as, N, hy, fun n hn => ?_, reverse_perm as, ?_⟩
    · rw [traverseVariantAnswerTrie, pushPath_length, if_neg (by omega), if_neg (by omega),
        pushReversed_pushPath, hN n hn, append_nil]
      rfl
    · have hnodup := hb.nodup h hy
      exact ((reverse_perm as).append_left ps).nodup_iff.mpr hnodup

/-- A trie with an answer for the integers 7 and 8. -/
def twoAnswers : Trie :=
  let t := emptyTrie.newBasicTrie ⟨.int, 0⟩ basicAnswerTrieTT
  let t := (t.oneBtnChkIns 1 ⟨.int, 7⟩ none basicAnswerTrieTT).trie.markNewLeaf 2 true
  (t.oneBtnChkIns 1 ⟨.int, 8⟩ none basicAnswerTrieTT).trie.markNewLeaf 3 true

theorem reachable_twoAnswers : Reachable twoAnswers := by
  have hroot : Reachable (emptyTrie.newBasicTrie ⟨.int, 0⟩ basicAnswerTrieTT) :=
    .newRoot _ _ .empty rfl
  have hseven := hroot.insert 1 ⟨.int, 7⟩ none basicAnswerTrieTT rfl
  have hleaf := hseven.newLeaf 2 true ⟨rfl, by decide, rfl⟩
  have height := hleaf.insert 1 ⟨.int, 8⟩ none basicAnswerTrieTT rfl
  exact height.newLeaf 3 true ⟨rfl, by decide, rfl⟩

theorem Reachable.answerTrie (h : Reachable t) (hroot : t.root ≠ 0 ∧ ¬(t.node t.root).Fails)
    (hinner : ∀ p < t.nextStruct, (t.node p).free = false → (t.node p).isLeafNode = false →
      (t.node p).child.nodes ≠ []) : AnswerTrie t where
  wf := h.wf.1
  root := hroot
  inner p hp hleaf := .inl (hinner p (h.wf.1.alloc.live_lt p hp).2 hp hleaf)

theorem collectsRemaining_twoAnswers : CollectsRemaining twoAnswers [3] [.node [2]] := by
  have htrie : AnswerTrie twoAnswers :=
    reachable_twoAnswers.answerTrie (by decide) (by decide)
  have hstart : Backtracks twoAnswers [] (.node [3, 2]) [] := .start
  have hanswer : Backtracks twoAnswers [3] .fail [.node [2]] := hstart.answer rfl
  apply (collectsRemaining_iff htrie hanswer).mpr
  refine ⟨by decide, fun p hp q hq => ?_⟩
  rw [show p = 2 from mem_singleton.mp hp] at hq
  cases hq with
  | refl => decide
  | child hc => exact absurd hc (by decide)

/-- A deleted answer is collected. -/
theorem deleted_answer_collected :
    ∃ t ps breg, AnswerTrie t ∧ Backtracks t ps .fail breg ∧ ¬CollectsRemaining t ps breg := by
  have hreach := reachable_twoAnswers.safeDelete 2 ⟨rfl, by decide, rfl⟩
  have hstart : Backtracks (twoAnswers.safeDeleteBranch 2) [] (.node [3, 2]) [] := .start
  refine ⟨_, [3], [.node [2]], hreach.answerTrie (by decide) (by decide), hstart.answer rfl, ?_⟩
  rintro ⟨l, as, N, hy, hl, hperm, -⟩
  have hnone : Yields (twoAnswers.safeDeleteBranch 2) .fail [.node [2]] [] := by
    apply Yields.goto rfl
    apply Yields.goto rfl
    exact .exhausted rfl
  rw [hy.unique hnone] at hperm
  rw [hperm.eq_nil] at hl
  have htwo : traverseVariantAnswerTrie (twoAnswers.safeDeleteBranch 2) (N + 2) [.node [2]] =
      some (.ok [2]) := rfl
  rw [hl _ (Nat.le_add_right _ _)] at htwo
  cases htwo

end XSBEngine.Tries
