import XSBEngine.Terms.Cyclic
import XSBEngine.Terms.Walker
import XSBEngine.Tries.Path
import XSBEngine.Tries.Runs

/-!
# Interning terms

`trie_intern_chk_ins` with `recvariant_trie_intern` and its size check
(`XSB/emu/tries.c:2549–2786`), and the choice point check that decides whether chains are hashed
(`XSB/emu/tr_utils.c:1937`).
-/

namespace XSBEngine.Tries

open Trie Terms StackTraversal

/-! ### Choice points -/

/-- The loop of `interned_trie_cps_check` up the parents of a node. No path is longer than the
number of records. -/
def climbToRoot (t : Trie) : Nat → BTNptr → BTNptr
  | 0, p => p
  | fuel + 1, p =>
    if p ≠ 0 ∧ (t.node p).isTrieRoot = false then climbToRoot t fuel (t.node p).parent else p

/-- `interned_trie_cps_check`: whether a choice point of an interned trie belongs to the trie
with this root. The choice points are given by their trie nodes. -/
def internedTrieCpsCheck (t : Trie) (choicePoints : List BTNptr) (root : BTNptr) : Bool :=
  choicePoints.any fun trieNode =>
    (t.node trieNode).trieType = internTrieTT ∧ climbToRoot t (t.nextStruct + 1) trieNode = root

/-! ### The walker -/

/-- The arities of the PSC table, the mark of `is_cyclic`, and `get_intern_psc`. -/
structure Env where
  arity : Nat → Nat
  visited : Nat
  internPsc : Nat

/-- The arguments `term`, `cps_check_flag` and `expand_flag`, the choice point stack, and
`flags[CYCLIC_CHECK_SIZE]` and `flags[MAX_TABLE_ANSWER_METRIC]`. -/
structure InternCall where
  term : Cell
  cpsCheckFlag : Bool
  expandFlag : Bool
  choicePoints : List BTNptr
  cyclicCheckSize : Nat
  maxTableAnswerMetric : Nat

/-- `trie_intern_depth_ctr` and `working_trie_intern_depth_limit`, and whether the walker is
below the top of the term, where the check is made. -/
structure InternLimits where
  nested : Bool
  depthCtr : Nat
  working : Nat

/-- The two calls of `xsb_abort` and the call of `xsb_table_error_vargs`. Only the first comes
after a call of `safe_delete_branch`. -/
inductive InternAbort where
  | cyclicDelete
  | cyclic
  | tooLarge
  deriving DecidableEq

/-- `CHECK_TRIE_INTERN_DEPTH`, `tries.c:2647`. The cells that are not compound have no check. -/
def checkTrieInternDepth (env : Env) (call : InternCall) (fuel : Nat) (m : Machine)
    (lim : InternLimits) (cell : Cell) : Option (InternLimits ⊕ InternAbort) :=
  if lim.nested = false ∨ cell.isCompound = false then some (.inl { lim with nested := true })
  else
    let lim := { lim with depthCtr := lim.depthCtr + 1 }
    if lim.working ≤ lim.depthCtr then
      if lim.working = call.cyclicCheckSize then
        match isCyclic env.arity env.visited fuel m.mem call.term with
        | none => none
        | some (_, true) => some (.inr .cyclicDelete)
        | some (_, false) =>
          if lim.working < call.maxTableAnswerMetric then
            some (.inl { lim with working := call.maxTableAnswerMetric })
          else some (.inl lim)
      else
        match isCyclic env.arity env.visited fuel m.mem call.term with
        | none => none
        | some (_, true) => some (.inr .cyclic)
        | some (_, false) => some (.inr .tooLarge)
    else some (.inl lim)

theorem checkTrieInternDepth_mono (env : Env) (call : InternCall) (n k : Nat) (m : Machine)
    (lim : InternLimits) (c : Cell) (x : InternLimits ⊕ InternAbort)
    (h : checkTrieInternDepth env call n m lim c = some x) (hle : n ≤ k) :
    checkTrieInternDepth env call k m lim c = some x := by
  unfold checkTrieInternDepth at h ⊢
  split at h
  next hs => rw [if_pos hs]; exact h
  next hs =>
    rw [if_neg hs]
    simp only at h ⊢
    split at h
    next hw =>
      rw [if_pos hw]
      split at h
      next hcc =>
        rw [if_pos hcc]
        cases hcy : isCyclic env.arity env.visited n m.mem call.term with
        | none => rw [hcy] at h; cases h
        | some r => rw [hcy] at h; rw [isCyclic_mono hcy hle]; exact h
      next hcc =>
        rw [if_neg hcc]
        cases hcy : isCyclic env.arity env.visited n m.mem call.term with
        | none => rw [hcy] at h; cases h
        | some r => rw [hcy] at h; rw [isCyclic_mono hcy hle]; exact h
    next hw => rw [if_neg hw]; exact h

/-- `recvariant_trie_intern` together with the switch over the top of the term, which differs
from it in leaving out the size check. -/
def internWalker (env : Env) (call : InternCall) : Walker InternLimits InternAbort where
  arity := env.arity
  move := false
  byAddr := false
  check := checkTrieInternDepth env call
  check_mono := checkTrieInternDepth_mono env call

/-- The local variables at the start. -/
def internReader (call : InternCall) (m : Machine) : Reader InternLimits where
  machine := { m with trail := [] }
  ctr := 0
  constTag := false
  limits := ⟨false, 0, min call.cyclicCheckSize call.maxTableAnswerMetric⟩

/-! ### The insertion -/

/-- Whether chains are hashed and tables expanded. -/
def InternCall.expand (call : InternCall) (t : Trie) : Bool :=
  if call.cpsCheckFlag then !(internedTrieCpsCheck t call.choicePoints t.root) else call.expandFlag

/-- How `trie_intern_chk_ins` ends: with the leaf and `*flagptr`, or in an abort. -/
inductive InternResult where
  | done (t : Trie) (m : Machine) (leaf : BTNptr) (flag : Bool)
  | abort (t : Trie) (m : Machine) (reason : InternAbort)

/-- The root of the trie, made by `newBasicTrie` if there is none. -/
def internRoot (env : Env) (t : Trie) : Trie :=
  if t.root = 0 then t.newBasicTrie (encodeTriePSC env.internPsc) internTrieTT else t

/-- `trie_intern_chk_ins`, `tries.c:2675`. -/
def trieInternChkIns (env : Env) (call : InternCall) (fuel : Nat) (t : Trie) (m : Machine) :
    Option InternResult :=
  let t := internRoot env t
  match run (internWalker env call).step
      (fun r symbol =>
        oneInternedNodeChkIns (call.expand r.trie) r.trie r.node symbol internTrieTT)
      fuel ⟨t, true, t.root⟩ (internReader call m) [call.term] with
  | none => none
  | some (r, .abort s reason) =>
    let t := if reason = .cyclicDelete then r.trie.safeDeleteBranch r.node else r.trie
    some (.abort t s.machine reason)
  | some (r, .done s) =>
    let t := if r.found then r.trie else r.trie.markNewLeaf r.node s.constTag
    let m := s.machine.undoAnswerBindings
    if (t.node r.node).isDeletedNode then some (.done (t.undeleteBranch r.node) m r.node false)
    else some (.done t m r.node r.found)

/-- The symbols that the walker reads, without the trie. -/
def internScan (env : Env) (call : InternCall) (fuel : Nat) (m : Machine) :
    Option (Output (Reader InternLimits) Symbol InternAbort) :=
  scan (internWalker env call).step fuel (internReader call m) [call.term]

/-- What is left to do after the symbols of a term have been inserted. -/
def finishLeaf (r : ChkIns) (constTag : Bool) : Trie :=
  let t := if r.found then r.trie else r.trie.markNewLeaf r.node constTag
  t.undeleteBranch r.node

/-- The insertion of the symbols below the root. -/
def internPath (env : Env) (call : InternCall) (t : Trie) (path : List Symbol) : ChkIns :=
  insertPath call.expand internTrieTT ⟨internRoot env t, true, (internRoot env t).root⟩ path

/-- The trie gets the symbols of the term, whatever it holds. -/
theorem trieInternChkIns_eq (env : Env) (call : InternCall) (fuel : Nat) (t : Trie) (m : Machine) :
    trieInternChkIns env call fuel t m = (internScan env call fuel m).map fun o =>
      match o.last with
      | .done s =>
        .done (finishLeaf (internPath env call t o.symbols) s.constTag) s.machine.undoAnswerBindings
          (internPath env call t o.symbols).node
          ((internPath env call t o.symbols).found &&
            !((internPath env call t o.symbols).trie.node
              (internPath env call t o.symbols).node).isDeletedNode)
      | .abort s reason =>
        .abort (if reason = .cyclicDelete then
            (internPath env call t o.symbols).trie.safeDeleteBranch
              (internPath env call t o.symbols).node
          else (internPath env call t o.symbols).trie) s.machine reason := by
  unfold trieInternChkIns internScan
  simp only
  rw [run_eq]
  cases scan (internWalker env call).step fuel (internReader call m) [call.term] with
  | none => rfl
  | some o =>
    obtain ⟨path, last⟩ := o
    have hpath : path.foldl (fun r symbol =>
        oneInternedNodeChkIns (call.expand r.trie) r.trie r.node symbol internTrieTT)
        ⟨internRoot env t, true, (internRoot env t).root⟩ = internPath env call t path := rfl
    simp only [Option.map_some, hpath]
    cases last with
    | abort s reason => rfl
    | done s =>
      generalize internPath env call t path = r
      have hdel : ((if r.found = true then r.trie
          else r.trie.markNewLeaf r.node s.constTag).node r.node).isDeletedNode =
          (r.trie.node r.node).isDeletedNode := by
        split
        · rfl
        · rw [markNewLeaf, modify_node_self]
          rfl
      simp only [finishLeaf, undeleteBranch, hdel]
      cases (r.trie.node r.node).isDeletedNode <;> simp

end XSBEngine.Tries
