import XSBEngine.Ranges.Retrieval

/-!
# Runs on range trees

Any sequence of operations on any number of trees leaves in each what has been added to it and not
been deleted since.
-/

namespace XSBEngine.Ranges

open Function Set XSBEngine.Library

variable {τ κ ν : Type*} [DecidableEq τ] [LinearOrder κ] [LinearOrder ν] {minValue maxValue : κ}
  {t t' : Tree κ ν} {s s' : Store τ κ ν} {c : τ → Option (Set (κ × ν))}

/-! ### What a tree is to hold -/

/-- What an operation does to the pairs of a tree. There are none before it is initialised. -/
def Op.effect : Op κ ν → Option (Set (κ × ν)) → Option (Set (κ × ν))
  | init, _ => some ∅
  | add key val, c => c.map (insert (key, val))
  | delete key val, c => c.map (· \ deleted key val)
  | drop, _ => none

/-- The pairs of all trees after some operations. -/
def effects : List (τ × Op κ ν) → (τ → Option (Set (κ × ν))) → τ → Option (Set (κ × ν))
  | [], c => c
  | (i, op) :: ops, c => effects ops (update c i (op.effect (c i)))

/-- The pairs that have been added to a tree and not been deleted since. -/
def added (ops : List (τ × Op κ ν)) (i : τ) : Set (κ × ν) := (effects ops (fun _ => none) i).getD ∅

/-- The keys of an operation are between the least and the greatest value. -/
def Op.Inside (minValue maxValue : κ) : Op κ ν → Prop
  | add key _ => key ∈ Ioo minValue maxValue
  | delete key _ => key ∈ Ioo minValue maxValue
  | _ => True

/-- The intervals of each node cover the one that leads to it, and keys are in those of their
leaves. -/
structure Partitioned (minValue maxValue : κ) (t : Tree κ ν) : Prop where
  root : t.rt ≠ [] → Tiles Node.lo Node.hi (kids t.facts .root) minValue maxValue
  inner : ∀ f ∈ t.rt, f.leaf = false →
    Tiles Node.lo Node.hi (kids t.facts f.node.ptr) f.node.lo f.node.hi
  parent : ∀ f ∈ t.rt, f.id ≠ .root → ∃ g ∈ t.rt, g.leaf = false ∧ g.node.ptr = f.id
  keys : ∀ r ∈ t.rtval, ∃ f ∈ t.rt, f.leaf = true ∧ f.node.ptr = r.id ∧
    r.key ∈ Ico f.node.lo f.node.hi

/-- The tree holds the pairs. -/
def Holds (minValue maxValue : κ) (t : Tree κ ν) : Option (Set (κ × ν)) → Prop
  | none => t.rt = [] ∧ t.rtval = []
  | some S => Valid minValue maxValue t ∧ pairs t = S

omit [LinearOrder ν] in
theorem Valid.partitioned (h : Valid minValue maxValue t) : Partitioned minValue maxValue t := by
  obtain ⟨level, hshape⟩ := h.shape
  refine ⟨fun _ => hshape.root, hshape.inner, hshape.parent, fun r hr => ?_⟩
  obtain ⟨p, hp, hptr, hk⟩ := h.stored.inLeaf r hr
  obtain ⟨f, hf, hleaf, rfl⟩ := mem_leafNodes.mp hp
  exact ⟨f, hf, hleaf, hptr, hk⟩

variable {S : Option (Set (κ × ν))}

omit [LinearOrder ν] in
theorem Holds.partitioned (h : Holds minValue maxValue t S) :
    Partitioned minValue maxValue t := by
  cases S with
  | none =>
    obtain ⟨hrt, hrtval⟩ := h
    refine ⟨fun hne => absurd hrt hne, ?_, ?_, ?_⟩
    · rw [hrt]
      nofun
    · rw [hrt]
      nofun
    · rw [hrtval]
      nofun
  | some S => exact h.1.partitioned

omit [LinearOrder ν] in
/-- The counter may grow. -/
theorem Holds.mono (h : Holds minValue maxValue t S)
    (hrt : t'.rt = t.rt) (hrtval : t'.rtval = t.rtval) (hnext : t.next ≤ t'.next) :
    Holds minValue maxValue t' S := by
  obtain ⟨rt, rtval, next⟩ := t
  obtain ⟨rt', rtval', next'⟩ := t'
  cases hrt
  cases hrtval
  cases S with
  | none => exact h
  | some S =>
    obtain ⟨⟨hnodup, hshape, hnum, hstored⟩, hpairs⟩ := h
    exact ⟨⟨hnodup, hshape, fun f hf i hi => (hnum f hf i hi).trans hnext, hstored⟩, hpairs⟩

/-! ### Operations -/

variable (e : Enumeration κ ν)

omit [LinearOrder κ] [LinearOrder ν] in
theorem nodes_nil (h : t.rt = []) (id : Ptr) : e.nodes t id = [] := by
  have hperm := e.perm_rt t.rt
  rw [h] at hperm
  rw [Enumeration.nodes, h, hperm.eq_nil, List.filter_nil]

/-- An operation does to a tree what it is to do, or fails on a tree that is not initialised. -/
theorem exec_ok (hlt : minValue < maxValue) {op : Op κ ν} (hop : op.Inside minValue maxValue)
    (h : Holds minValue maxValue t S) :
    ∃ t' N, Holds minValue maxValue t' (op.effect S) ∧ t.next ≤ t'.next ∧
      ((∀ n ≥ N, op.exec e minValue maxValue n t = .ok t') ∨
        t' = t ∧ ∀ n ≥ N, op.exec e minValue maxValue n t = .error .fails) := by
  cases op with
  | init =>
    refine ⟨_, 0, ⟨valid_init hlt t, ?_⟩, le_refl _, .inl fun _ _ => rfl⟩
    ext p
    simp [pairs, initRangeTree]
  | drop => exact ⟨deleteRangeTree t, 0, ⟨rfl, rfl⟩, le_refl _, .inl fun _ _ => rfl⟩
  | add key val =>
    cases S with
    | none =>
      refine ⟨t, 1, h, le_refl _, .inr ⟨rfl, fun n hn => ?_⟩⟩
      obtain ⟨n, rfl⟩ := Nat.exists_eq_add_of_le' hn
      show addToRangeTree e (n + 1) .root [] key val t = _
      rw [addToRangeTree, nodes_nil e h.1, List.find?_nil]
    | some S =>
      obtain ⟨t', N, hrun, hvalid, hpairs, hnext⟩ := h.1.add e ⟨hop.1.le, hop.2⟩ val
      refine ⟨t', N, ⟨hvalid, ?_⟩, hnext, .inl hrun⟩
      rw [hpairs, h.2]
  | delete key val =>
    cases S with
    | none =>
      refine ⟨t, 1, h, le_refl _, .inr ⟨rfl, fun n hn => ?_⟩⟩
      obtain ⟨n, rfl⟩ := Nat.exists_eq_add_of_le' hn
      show deleteFromRangeTree e (n + 1) .root key val t = _
      rw [deleteFromRangeTree, nodes_nil e h.1, firstOf]
    | some S =>
      obtain ⟨t', N, hrun, hvalid, hpairs, hnext⟩ := h.1.delete e ⟨hop.1.le, hop.2⟩ val
      refine ⟨t', N, ⟨hvalid, ?_⟩, hnext.ge, .inl hrun⟩
      rw [hpairs, h.2]

/-- A run does to all trees what its operations are to do. -/
theorem run_ok (hlt : minValue < maxValue) {ops : List (τ × Op κ ν)}
    (hops : ∀ o ∈ ops, o.2.Inside minValue maxValue)
    (h : ∀ i, Holds minValue maxValue (s.tree i) (c i)) :
    ∃ s' N, (∀ n ≥ N, run e minValue maxValue n ops s = some s') ∧
      ∀ i, Holds minValue maxValue (s'.tree i) (effects ops c i) := by
  induction ops generalizing s c with
  | nil => exact ⟨s, 0, fun _ _ => rfl, h⟩
  | cons o ops ih =>
    obtain ⟨i, op⟩ := o
    obtain ⟨t', N, hholds, hnext, hrun⟩ := exec_ok e hlt (hops _ List.mem_cons_self) (h i)
    have hstep : ∀ j, Holds minValue maxValue ((s.put i t').tree j)
        (update c i (op.effect (c i)) j) := by
      intro j
      by_cases hji : j = i
      · rw [hji, update_self]
        exact hholds.mono (update_self ..) (update_self ..) (le_refl _)
      · rw [update_of_ne hji]
        exact (h j).mono (update_of_ne hji ..) (update_of_ne hji ..) hnext
    have hrest := fun o ho => hops o (List.mem_cons_of_mem _ ho)
    rcases hrun with hrun | ⟨rfl, hrun⟩
    · obtain ⟨s', N', hrun', hall⟩ := ih hrest hstep
      refine ⟨s', max N N', fun n hn => ?_, hall⟩
      rw [run, hrun n ((le_max_left N N').trans hn)]
      exact hrun' n ((le_max_right N N').trans hn)
    · have hput : s.put i (s.tree i) = s := by
        rw [Store.put, Store.tree, update_eq_self, update_eq_self]
      rw [hput] at hstep
      obtain ⟨s', N', hrun', hall⟩ := ih hrest hstep
      refine ⟨s', max N N', fun n hn => ?_, hall⟩
      rw [run, hrun n ((le_max_left N N').trans hn)]
      exact hrun' n ((le_max_right N N').trans hn)

omit [LinearOrder ν] in
theorem Holds.get (h : Holds minValue maxValue t S) :
    ∃ N, ∀ lo hi (key : KeyArg κ), ∃ l, (∀ n ≥ N, getFromRangeTree e n lo hi key t = some l) ∧
      l.Nodup ∧ ∀ p, p ∈ l ↔
        p ∈ S.getD ∅ ∧ lo ≤ p.1 ∧ p.1 ≤ hi ∧ key.unifies p.1 = true := by
  cases S with
  | none =>
    refine ⟨1, fun lo hi key => ⟨[], fun n hn => ?_, List.nodup_nil, fun p => ?_⟩⟩
    · obtain ⟨n, rfl⟩ := Nat.exists_eq_add_of_le' hn
      have hvals : ∀ lo hi, getFromRangeTreeVals e lo hi key t (n + 1) .root = some [] := by
        intro lo hi
        rw [getFromRangeTreeVals, nodes_nil e h.1, getFromNodes]
      unfold getFromRangeTree
      split
      next =>
        cases key with
        | ground k =>
          simp only [hvals]
          split
          next => rfl
          next => rfl
        | pattern unifies =>
          simp only [hvals]
          rfl
      next => rfl
    · simp
  | some S =>
    obtain ⟨N, hget⟩ := h.1.get e
    refine ⟨N, fun lo hi key => ?_⟩
    obtain ⟨l, hl, hnodup, hmem⟩ := hget lo hi key
    refine ⟨l, hl, hnodup, fun p => ?_⟩
    rw [hmem, h.2]
    rfl

/-- After any operations the pairs in a range are enumerated that have been added to the tree and
not been deleted since, each once, and the intervals of the nodes are partitions. -/
theorem get_after_run (hlt : minValue < maxValue) (ops : List (τ × Op κ ν))
    (hops : ∀ o ∈ ops, o.2.Inside minValue maxValue) :
    ∃ s N, (∀ n ≥ N, run e minValue maxValue n ops .start = some s) ∧
      ∀ i, Partitioned minValue maxValue (s.tree i) ∧
        ∀ lo hi (key : KeyArg κ), ∃ l M,
          (∀ n ≥ M, getFromRangeTree e n lo hi key (s.tree i) = some l) ∧ l.Nodup ∧
          ∀ p, p ∈ l ↔ p ∈ added ops i ∧ lo ≤ p.1 ∧ p.1 ≤ hi ∧ key.unifies p.1 = true := by
  obtain ⟨s, N, hrun, hall⟩ :=
    run_ok e hlt hops (s := .start) (c := fun _ => none) fun _ => ⟨rfl, rfl⟩
  refine ⟨s, N, hrun, fun i => ⟨(hall i).partitioned, fun lo hi key => ?_⟩⟩
  obtain ⟨M, hget⟩ := (hall i).get e
  obtain ⟨l, hl⟩ := hget lo hi key
  exact ⟨l, M, hl⟩

/-- Facts are found in the order of the lists. -/
def listed (κ ν : Type*) : Enumeration κ ν := ⟨id, id, fun _ => .refl _, fun _ => .refl _⟩

theorem get_after_adds :
    ∃ (s : Store Nat Nat Nat) (N : Nat),
      (∀ n ≥ N, run (listed Nat Nat) 0 100 n
        [(1, .init), (1, .add 5 50), (1, .add 6 60), (1, .delete 5 none)] .start = some s) ∧
      ∀ i, Partitioned 0 100 (s.tree i) ∧
        ∀ lo hi (key : KeyArg Nat), ∃ l M,
          (∀ n ≥ M, getFromRangeTree (listed Nat Nat) n lo hi key (s.tree i) = some l) ∧ l.Nodup ∧
          ∀ p, p ∈ l ↔
            p ∈ added [(1, .init), (1, .add 5 50), (1, .add 6 60), (1, .delete 5 none)] i ∧
              lo ≤ p.1 ∧ p.1 ≤ hi ∧ key.unifies p.1 = true := by
  refine get_after_run (listed Nat Nat) (by omega) _ ?_
  simp [Op.Inside]

end XSBEngine.Ranges
