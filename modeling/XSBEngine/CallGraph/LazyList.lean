import XSBEngine.CallGraph.Reevaluation
import XSBEngine.Library.PostOrder

/-!
# The list for lazy evaluation

`dfs_dependency_edges`, `XSB/emu/call_graph_xsb.c:917–966`, and the order in which
`lazy_reeval_trap` evaluates its list, `XSB/syslib/increval.P:447–458`.
-/

namespace XSBEngine.CallGraph

open Library List Relation

/-- What the walk over the dependencies reads of the nodes. `inedges` gives the nodes on which a
node depends, and `goal` is false for a null pointer. -/
structure DependencyGraph where
  inedges : Nat → List Nat
  goal : Nat → Bool
  idgDynLeaf : Nat → Bool
  isCompleted : Nat → Bool

/-- How the walk ends: it returns, or throws the error for an incomplete table. -/
inductive DependencyEnd where
  | returned (ret : Nat) (f : IdgFlags) (lazyAffected : List Nat)
  | incomplete (call1 : Nat) (f : IdgFlags)

namespace IdgFlags

/-- A node is marked `COMPUTE_DIRECTLY`. -/
def computeDirectly (f : IdgFlags) (cn : Nat) : IdgFlags :=
  { f with recomputable := Function.update f.recomputable cn true }

end IdgFlags

namespace DependencyEnd

/-- `ret = ret | …`. -/
def orRet (ret : Nat) : DependencyEnd → DependencyEnd
  | .incomplete cn f => .incomplete cn f
  | .returned ret' f lazyAffected => .returned (ret ||| ret') f lazyAffected

/-- A node that is not a leaf is put on the list after its dependencies. -/
def addCallnode (idgDynLeaf : Bool) (call1 : Nat) : DependencyEnd → DependencyEnd
  | .incomplete cn f => .incomplete cn f
  | .returned ret f lazyAffected =>
    .returned ret f (if idgDynLeaf = false ∧ ret = 0 then call1 :: lazyAffected else lazyAffected)

end DependencyEnd

namespace DependencyGraph

/-- The body of the loop over the dependencies. -/
def followInedge (v : DependencyGraph)
    (search : IdgFlags → List Nat → Nat → Option DependencyEnd) :
    DependencyEnd → Nat → Option DependencyEnd
  | .incomplete c f, _ => some (.incomplete c f)
  | .returned ret f lazyAffected, cn =>
    if ret = 0 ∧ v.goal cn = true ∧ 0 < f.falsecount cn then
      (search f lazyAffected cn).map (DependencyEnd.orRet ret)
    else some (.returned ret f lazyAffected)

/-- `dfs_dependency_edges`. The first argument bounds the depth of the recursion, and the head of
the list is its first element. -/
def dfsDependencyEdges (v : DependencyGraph) :
    Nat → IdgFlags → List Nat → Nat → Option DependencyEnd
  | 0, _, _, _ => none
  | fuel + 1, f, lazyAffected, call1 =>
    if !v.idgDynLeaf call1 && !v.isCompleted call1 then some (.incomplete call1 f)
    else if f.recomputable call1 then some (.returned 0 f lazyAffected)
    else
      ((v.inedges call1).foldlM (v.followInedge (v.dfsDependencyEdges fuel))
        (.returned 0 (f.computeDirectly call1) lazyAffected)).map
          (DependencyEnd.addCallnode (v.idgDynLeaf call1) call1)

/-- The order in which the calls of a list are evaluated, of which the last is the call itself. -/
def evaluationOrder (lazyAffected : List Nat) : List Nat := lazyAffected.reverse

/-- The walk goes on to a node. -/
def isAffected (v : DependencyGraph) (f : IdgFlags) (cn : Nat) : Bool :=
  v.goal cn && decide (0 < f.falsecount cn)

/-- The affected nodes on which a node depends. -/
def affected (v : DependencyGraph) (f : IdgFlags) (cn : Nat) : List Nat :=
  (v.inedges cn).filter (v.isAffected f)

/-- A dependency on an affected node that is not marked `COMPUTE_DIRECTLY`. -/
def Pending (v : DependencyGraph) (f : IdgFlags) (a b : Nat) : Prop :=
  b ∈ v.inedges a ∧ v.goal b = true ∧ 0 < f.falsecount b ∧ f.recomputable b = false

/-- The table of a node is incomplete. -/
def Incomplete (v : DependencyGraph) (cn : Nat) : Prop :=
  v.idgDynLeaf cn = false ∧ v.isCompleted cn = false

end DependencyGraph

/-- The list that a walk from `call1` makes, in the order of the evaluation, and its marks. -/
structure LazyList (v : DependencyGraph) (f : IdgFlags) (call1 : Nat) (f' : IdgFlags)
    (evaluated : List Nat) : Prop where
  nodup : evaluated.Nodup
  mem : ∀ x, x ∈ evaluated ↔ v.idgDynLeaf x = false ∧ f.recomputable call1 = false ∧
    ReflTransGen (v.Pending f) call1 x
  order : ∀ x ∈ evaluated, ¬ TransGen (v.Pending f) x x → ∀ y ∈ evaluated,
    TransGen (v.Pending f) x y → [y, x].Sublist evaluated
  marks : ∀ x, f'.recomputable x = true ↔
    f.recomputable x = true ∨ f.recomputable call1 = false ∧ ReflTransGen (v.Pending f) call1 x
  falsecount : f'.falsecount = f.falsecount


/-! ### The walk -/

variable {v : DependencyGraph} {f f' : IdgFlags} {call1 cn fuel : Nat} {l l' : List Nat}
  {m : Nat → Bool}

namespace DependencyGraph

theorem mem_affected : cn ∈ v.affected f call1 ↔
    cn ∈ v.inedges call1 ∧ v.goal cn = true ∧ 0 < f.falsecount cn := by
  simp [affected, isAffected]

theorem pending_iff (a b : Nat) :
    PostOrder.Fresh (v.affected f) f.recomputable a b ↔ v.Pending f a b := by
  rw [PostOrder.Fresh, mem_affected, Pending, and_assoc, and_assoc]

/-- An error ends the loop. -/
theorem foldlM_incomplete (search : IdgFlags → List Nat → Nat → Option DependencyEnd)
    (targets : List Nat) (cn : Nat) (f : IdgFlags) :
    targets.foldlM (v.followInedge search) (.incomplete cn f) = some (.incomplete cn f) := by
  induction targets with
  | nil => rfl
  | cons c targets ih => exact ih

/-- How the walk from a node goes on after a search that lists nodes in post-order. -/
def Follows (v : DependencyGraph) (f : IdgFlags) (roots : List Nat) (m : Nat → Bool) (l : List Nat)
    (e : Option DependencyEnd) : Prop :=
  (∃ f', e = some (.returned 0 f' (l.filter fun x => !v.idgDynLeaf x)) ∧ f'.recomputable = m ∧
    f'.falsecount = f.falsecount) ∨
  ∃ cn f', e = some (.incomplete cn f') ∧ v.Incomplete cn ∧
    ∃ r ∈ roots, ReflTransGen (DepthFirst.Edge (v.affected f)) r cn

/-- The loop over the dependencies. -/
theorem follows_targets {search : IdgFlags → List Nat → Nat → Option DependencyEnd}
    (visit : Nat → (Nat → Bool) × List Nat → Option ((Nat → Bool) × List Nat))
    (hsearch : ∀ (f1 : IdgFlags) (l1 : List Nat) (cn : Nat) (m : Nat → Bool) (l2 : List Nat),
      f1.falsecount = f.falsecount → visit cn (f1.recomputable, l1) = some (m, l2) →
      v.Follows f [cn] m l2 (search f1 (l1.filter fun x => !v.idgDynLeaf x) cn))
    (targets : List Nat) (hf : f'.falsecount = f.falsecount)
    (hrun : (targets.filter (v.isAffected f)).foldlM
      (fun s c => visit c s) (f'.recomputable, l) = some (m, l')) :
    v.Follows f (targets.filter (v.isAffected f)) m l'
      (targets.foldlM (v.followInedge search)
        (.returned 0 f' (l.filter fun x => !v.idgDynLeaf x))) := by
  induction targets generalizing f' l with
  | nil =>
    cases hrun
    exact Or.inl ⟨f', rfl, rfl, hf⟩
  | cons c targets ih =>
    rw [foldlM_cons]
    by_cases hc : v.goal c = true ∧ 0 < f.falsecount c
    · have hfilter : v.isAffected f c = true := by simp [isAffected, hc]
      rw [filter_cons_of_pos hfilter] at hrun ⊢
      rw [foldlM_cons] at hrun
      obtain ⟨⟨m1, l1⟩, hvisit, hrest⟩ := Option.bind_eq_some_iff.mp hrun
      have hfollow : v.followInedge search
          (.returned 0 f' (l.filter fun x => !v.idgDynLeaf x)) c =
          (search f' (l.filter fun x => !v.idgDynLeaf x) c).map (DependencyEnd.orRet 0) := by
        rw [followInedge, hf]
        exact if_pos ⟨rfl, hc⟩
      rw [hfollow]
      rcases hsearch f' l c m1 l1 hf hvisit with ⟨f1, he, hm, hf1⟩ |
        ⟨cn, f1, he, hinc, r, hr, hreach⟩
      · subst hm
        rw [he]
        rcases ih hf1 hrest with hdone | ⟨cn, f2, he2, hinc, r, hr, hreach⟩
        · exact Or.inl hdone
        · exact Or.inr ⟨cn, f2, he2, hinc, r, mem_cons_of_mem c hr, hreach⟩
      · rw [he]
        refine Or.inr ⟨cn, f1, foldlM_incomplete search targets cn f1, hinc, c,
          mem_cons_self, ?_⟩
        rw [mem_singleton.mp hr] at hreach
        exact hreach
    · have hfilter : ¬ v.isAffected f c = true := by simpa [isAffected] using hc
      rw [filter_cons_of_neg hfilter] at hrun ⊢
      have hfollow : v.followInedge search
          (.returned 0 f' (l.filter fun x => !v.idgDynLeaf x)) c =
          some (.returned 0 f' (l.filter fun x => !v.idgDynLeaf x)) := by
        rw [followInedge, hf]
        exact if_neg fun h => hc h.2
      rw [hfollow]
      exact ih hf hrun

/-- The walk follows a search that lists nodes in post-order. -/
theorem dfsDependencyEdges_follows (hf : f'.falsecount = f.falsecount)
    (hrun : PostOrder.visit (v.affected f) fuel cn (f'.recomputable, l) = some (m, l')) :
    v.Follows f [cn] m l'
      (v.dfsDependencyEdges fuel f' (l.filter fun x => !v.idgDynLeaf x) cn) := by
  induction fuel generalizing f' l cn m l' with
  | zero => cases hrun
  | succ fuel ih =>
    rw [dfsDependencyEdges]
    split
    next hinc =>
      refine Or.inr ⟨cn, f', rfl, ?_, cn, mem_singleton_self cn, .refl⟩
      simpa [Incomplete] using hinc
    next hcomplete =>
      rw [PostOrder.visit] at hrun
      split
      next hmark =>
        rw [if_pos hmark] at hrun
        cases hrun
        exact Or.inl ⟨f', rfl, rfl, hf⟩
      next hmark =>
        rw [if_neg hmark] at hrun
        obtain ⟨⟨m1, l1⟩, hfold, heq⟩ := Option.map_eq_some_iff.mp hrun
        cases heq
        have hloop := follows_targets (v := v) (f := f)
          (PostOrder.visit (v.affected f) fuel) (fun f1 l1 c m l2 hf1 hvisit ↦ ih hf1 hvisit)
            (v.inedges cn)
          (show (f'.computeDirectly cn).falsecount = f.falsecount from hf) hfold
        rcases hloop with ⟨f2, he, hm, hf2⟩ | ⟨c, f2, he, hinc, r, hr, hreach⟩
        · rw [he]
          refine Or.inl ⟨f2, ?_, hm, hf2⟩
          rw [Option.map_some, DependencyEnd.addCallnode]
          cases hleaf : v.idgDynLeaf cn with
          | false | true => simp [hleaf]
        · rw [he]
          exact Or.inr ⟨c, f2, rfl, hinc, cn, mem_singleton_self cn, hreach.head hr⟩

theorem reach_iff (a b : Nat) :
    PostOrder.Reach (v.affected f) f.recomputable a b ↔ ReflTransGen (v.Pending f) a b := by
  rw [PostOrder.Reach, funext fun a => funext fun b => propext (pending_iff (v := v) (f := f) a b)]

theorem transGen_iff (a b : Nat) :
    TransGen (PostOrder.Fresh (v.affected f) f.recomputable) a b ↔ TransGen (v.Pending f) a b := by
  rw [funext fun a => funext fun b => propext (pending_iff (v := v) (f := f) a b)]

/-- What a search that lists nodes in post-order lists. -/
theorem lazyList_of_listed (hl : PostOrder.Listed (v.affected f) f.recomputable m l)
    (hroot : m call1 = true) (hreach : ∀ x ∈ l, f.recomputable call1 = false ∧
      PostOrder.Reach (v.affected f) f.recomputable call1 x)
    (hm : f'.recomputable = m) (hf : f'.falsecount = f.falsecount) :
    LazyList v f call1 f' (l.filter fun x => !v.idgDynLeaf x) := by
  have hlisted : ∀ x, x ∈ l ↔
      f.recomputable call1 = false ∧ ReflTransGen (v.Pending f) call1 x := by
    intro x
    constructor
    · exact fun hx => ⟨(hreach x hx).1, (reach_iff call1 x).mp (hreach x hx).2⟩
    · rintro ⟨hfresh, hx⟩
      have hcall : call1 ∈ l := ((hl.marks call1).mp hroot).resolve_left (by simp [hfresh])
      exact hl.reach hcall ((reach_iff call1 x).mpr hx)
  constructor
  case nodup => exact hl.nodup.filter _
  case mem =>
    intro x
    rw [mem_filter, hlisted]
    simp only [Bool.not_eq_true']
    tauto
  case order =>
    intro x hx hcycle y hy hxy
    obtain ⟨hx, hxleaf⟩ := mem_filter.mp hx
    obtain ⟨-, hyleaf⟩ := mem_filter.mp hy
    have hsub := (hl.precedes hx (by rwa [transGen_iff]) ((transGen_iff x y).mpr hxy)).filter
      fun x => !v.idgDynLeaf x
    simpa [hyleaf, hxleaf] using hsub
  case marks =>
    intro x
    rw [hm, hl.marks, hlisted]
  case falsecount => exact hf

/-- A walk ends. It throws the error for an incomplete table that it meets, or lists what it
reaches. -/
theorem dfsDependencyEdges_ends {nodes : Finset Nat}
    (hnodes : ∀ x ∈ nodes, ∀ y ∈ v.inedges x, y ∈ nodes) (hcall : call1 ∈ nodes)
    (hfuel : nodes.card < fuel) (f : IdgFlags) :
    (∃ f' lazyAffected, v.dfsDependencyEdges fuel f [] call1 = some (.returned 0 f' lazyAffected) ∧
      LazyList v f call1 f' (evaluationOrder lazyAffected)) ∨
    ∃ cn f', v.dfsDependencyEdges fuel f [] call1 = some (.incomplete cn f') ∧ v.Incomplete cn ∧
      ReflTransGen (fun a b => b ∈ v.affected f a) call1 cn := by
  have hunvisited : (DepthFirst.unvisited nodes f.recomputable).card ≤ nodes.card :=
    Finset.card_filter_le ..
  obtain ⟨m, l, hvisit, hl, hroot, hreach⟩ := PostOrder.visit_spec
    (fun x hx y hy => hnodes x hx y (mem_of_mem_filter hy)) hcall
    (hunvisited.trans_lt hfuel) []
  have hfollows : v.Follows f [call1] m _ (v.dfsDependencyEdges fuel f [] call1) :=
    dfsDependencyEdges_follows rfl hvisit
  rcases hfollows with
    ⟨f', he, hm, hf⟩ | ⟨cn, f', he, hinc, r, hr, hpath⟩
  · refine Or.inl ⟨f', _, he, ?_⟩
    rw [evaluationOrder, append_nil, filter_reverse, reverse_reverse]
    exact lazyList_of_listed hl hroot hreach hm hf
  · rw [mem_singleton.mp hr] at hpath
    exact Or.inr ⟨cn, f', he, hinc, hpath⟩

end DependencyGraph

/-! ### States that are reached -/

/-- What the walk reads in a state. -/
def IdgState.dependencies (s : IdgState) (goal isCompleted : Nat → Bool) : DependencyGraph where
  inedges cn := (s.graph.node cn).inedges.map fun o => (s.graph.outedge o).callnode
  goal := goal
  idgDynLeaf := s.idgDynLeaf
  isCompleted := isCompleted

namespace IdgOK

variable {s : IdgState} {goal isCompleted : Nat → Bool} {a b x : Nat}

/-- The dependencies of a node are those with an edge to it. -/
theorem mem_dependencies (h : IdgOK s) (hb : b ∈ s.current)
    (ha : a ∈ (s.dependencies goal isCompleted).inedges b) :
    a ∈ s.current ∧ b ∈ s.graph.table a := by
  obtain ⟨o, ho, rfl⟩ := mem_map.mp ha
  obtain ⟨c, hc, rfl⟩ := h.edges.inedges b (h.edges.sub hb) o ho
  rw [h.edges.owner c hc]
  exact ⟨hc, (h.edges.mem_table_iff hc (h.edges.sub hb)).mpr ho⟩

/-- A node that depends on an invalid one is invalid, and so are those between them. -/
theorem pending_of_depends (h : IdgOK s) (hgoal : ∀ x, s.idgDynLeaf x = false → goal x = true)
    (hf : f.falsecount = s.flags.falsecount) (hfresh : ∀ x, f.recomputable x = false)
    (ha : a ∈ s.current) (hleaf : s.idgDynLeaf x = false) (hx : 0 < s.flags.falsecount x)
    (hpath : ReflTransGen (fun a b => b ∈ (s.dependencies goal isCompleted).inedges a) a x) :
    ReflTransGen ((s.dependencies goal isCompleted).Pending f) a x ∧
      (a = x ∨ s.idgDynLeaf a = false ∧ 0 < s.flags.falsecount a) := by
  induction hpath using ReflTransGen.head_induction_on with
  | refl => exact ⟨.refl, .inl rfl⟩
  | @head a c hac _ ih =>
    obtain ⟨hc, htable⟩ := h.mem_dependencies ha hac
    obtain ⟨hpending, hend⟩ := ih hc
    have hcx : s.idgDynLeaf c = false ∧ 0 < s.flags.falsecount c := by
      rcases hend with rfl | hend
      · exact ⟨hleaf, hx⟩
      · exact hend
    have haleaf : s.idgDynLeaf a = false := h.interior c hc a htable
    have hinvalid := h.invalid_closed hc ha ((h.valid c hc hcx.1).mpr hcx.2) htable
    refine ⟨hpending.head ⟨hac, hgoal c hcx.1, ?_, hfresh c⟩, .inr ⟨haleaf, ?_⟩⟩
    · rw [hf]
      exact hcx.2
    · exact (h.valid a ha haleaf).mp hinvalid

end IdgOK

/-- A walk ends. It throws the error for an incomplete table that it meets, or lists once each
interior call that it reaches over affected calls that are not marked `COMPUTE_DIRECTLY`, and in the
order of the evaluation a call on no cycle of such calls comes after those it depends on. In a state
that is reached and where no call is marked, these are all the affected interior calls on which the
call depends, and the call. -/
theorem lazyAffected_lists :
    (∀ (v : DependencyGraph) (nodes : Finset Nat) (f : IdgFlags) (call1 fuel : Nat),
      (∀ x ∈ nodes, ∀ y ∈ v.inedges x, y ∈ nodes) → call1 ∈ nodes → nodes.card < fuel →
      (∃ f' lazyAffected,
        v.dfsDependencyEdges fuel f [] call1 = some (.returned 0 f' lazyAffected) ∧
        LazyList v f call1 f' (DependencyGraph.evaluationOrder lazyAffected)) ∨
      ∃ cn f', v.dfsDependencyEdges fuel f [] call1 = some (.incomplete cn f') ∧ v.Incomplete cn ∧
        ReflTransGen (fun a b => b ∈ v.affected f a) call1 cn) ∧
    ∀ (s : IdgState) (goal isCompleted : Nat → Bool) (f f' : IdgFlags) (call1 fuel : Nat)
      (lazyAffected : List Nat), idgSystem.Reachable s →
      (∀ x, s.idgDynLeaf x = false → goal x = true) → f.falsecount = s.flags.falsecount →
      (∀ x, f.recomputable x = false) → call1 ∈ s.current → s.current.card < fuel →
      (s.dependencies goal isCompleted).dfsDependencyEdges fuel f [] call1 =
        some (.returned 0 f' lazyAffected) →
      ∀ x, s.idgDynLeaf x = false → (x ∈ lazyAffected ↔
        (x = call1 ∨ 0 < s.flags.falsecount x) ∧
        ReflTransGen (fun a b => b ∈ (s.dependencies goal isCompleted).inedges a) call1 x) := by
  constructor
  · intro v nodes f call1 fuel hnodes hcall hfuel
    exact DependencyGraph.dfsDependencyEdges_ends hnodes hcall hfuel f
  · intro s goal isCompleted f f' call1 fuel lazyAffected hs hgoal hf hfresh hcall hfuel hrun
      x hleaf
    have hok := idgSystem_invariant.holds hs
    have hlist : LazyList (s.dependencies goal isCompleted) f call1 f'
        (DependencyGraph.evaluationOrder lazyAffected) := by
      rcases DependencyGraph.dfsDependencyEdges_ends (v := s.dependencies goal isCompleted)
        (fun x hx y hy => (hok.mem_dependencies hx hy).1) hcall hfuel f with
        ⟨f₁, l, he, hl⟩ | ⟨cn, f₁, he, -⟩
      · rw [hrun] at he
        cases he
        exact hl
      · rw [hrun] at he
        cases he
    have hmem := hlist.mem x
    rw [DependencyGraph.evaluationOrder, mem_reverse] at hmem
    rw [hmem]
    constructor
    · rintro ⟨-, -, hpath⟩
      refine ⟨?_, ?_⟩
      · rcases hpath.cases_tail with heq | ⟨c, -, hc⟩
        · exact .inl heq
        · exact .inr (hf ▸ hc.2.2.1)
      · clear hmem hleaf
        induction hpath with
        | refl => exact .refl
        | tail _ he ih => exact ih.tail he.1
    · rintro ⟨hx, hpath⟩
      refine ⟨hleaf, hfresh call1, ?_⟩
      rcases hx with rfl | hx
      · exact .refl
      · exact (hok.pending_of_depends hgoal hf hfresh hcall hleaf hx hpath).1

/-- A leaf `4` has changed on which `0` and `1` depend, the call `2` depends on both, and `3`
depends on `1`. -/
def sharedDependency : DependencyGraph where
  inedges cn := match cn with
    | 0 => [4]
    | 1 => [4]
    | 2 => [0, 1]
    | 3 => [1]
    | _ => []
  goal _ := true
  idgDynLeaf cn := cn == 4
  isCompleted _ := true

/-- The marks after the change. -/
def sharedFlags : IdgFlags where
  deleted cn := decide (cn < 4)
  recomputable _ := false
  falsecount cn := match cn with
    | 2 => 2
    | _ => 1
  falsecount_lt cn := by
    split
    next => decide
    next => decide

/-- The walk from `2` lists what it depends on, and in a state with one call the walk from it lists
the call. -/
theorem sharedDependency_lists :
    (∃ f' lazyAffected,
      sharedDependency.dfsDependencyEdges 6 sharedFlags [] 2 = some (.returned 0 f' lazyAffected) ∧
      LazyList sharedDependency sharedFlags 2 f'
        (DependencyGraph.evaluationOrder lazyAffected)) ∧
    ∃ s : IdgState, idgSystem.Reachable s ∧ ∃ f' lazyAffected,
      (s.dependencies (fun _ => true) fun _ => true).dfsDependencyEdges 2 s.flags [] 0 =
        some (.returned 0 f' lazyAffected) ∧ 0 ∈ lazyAffected := by
  constructor
  · rcases lazyAffected_lists.1 sharedDependency {0, 1, 2, 3, 4} sharedFlags 2 6 (by decide)
      (by decide) (by decide) with hdone | ⟨cn, f', -, hinc, -⟩
    · exact hdone
    · exact Bool.noConfusion (hinc.2 : true = false)
  · have h0 : idgSystem.Reachable IdgState.start := .init rfl
    have h₁ := h0.step (e := IdgEvent.newCallNode 0 0 false)
      (.newCallNode false (by decide) (by decide))
    refine ⟨_, h₁, _, _, rfl, ?_⟩
    exact (lazyAffected_lists.2 _ (fun _ => true) (fun _ => true) _ _ 0 2 _ h₁ (fun _ _ => rfl) rfl
      (fun x => by simp [IdgState.newCallNode, IdgFlags.makecallnode, IdgFlags.restore,
        IdgFlags.setFalsecount, IdgFlags.setDeleted, IdgState.start])
      (by decide) (by decide) rfl 0 rfl).mpr ⟨.inl rfl, .refl⟩

/-- While the list of `2` is evaluated, a walk from `3` leaves out the affected call `1`, on which
it depends. -/
theorem sharedDependency_leaves_out :
    ∃ f' f'', sharedDependency.dfsDependencyEdges 6 sharedFlags [] 2 =
        some (.returned 0 f' [2, 1, 0]) ∧
      sharedDependency.dfsDependencyEdges 6 f' [] 3 = some (.returned 0 f'' [3]) ∧
      1 ∈ sharedDependency.inedges 3 ∧ 0 < f'.falsecount 1 ∧ 0 < f'.falsecount 3 ∧
      sharedDependency.idgDynLeaf 1 = false :=
  ⟨_, _, rfl, rfl, by decide, by decide, by decide, rfl⟩

end XSBEngine.CallGraph
