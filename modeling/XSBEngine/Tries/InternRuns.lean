import XSBEngine.Terms.Codes
import XSBEngine.Tries.InternPaths

/-!
# Interned tries over whole runs

Runs of `trie_intern_chk_ins` and `delete_branch` on one interned trie. A chain that grows while
hashing is forbidden and is hashed later leaves a table whose counter is wrong; in a run where
that does not happen the counters are exact, and a deletion removes one term.
-/

namespace XSBEngine.Tries

open Trie Terms StackTraversal

variable {t t' : Trie} {p q leaf : BTNptr} {u w path : List Symbol} {env : Env} {call : InternCall}
  {fuel : Nat} {m m' : Machine} {flag : Bool} {reason : InternAbort}

/-! ### Results of one call -/

/-- A walk emits a symbol for the top of the term before it can abort or end. -/
theorem internScan_ne_nil {o : Output (Reader InternLimits) Symbol InternAbort}
    (h : internScan env call fuel m = some o) : o.symbols ≠ [] := by
  unfold internScan at h
  cases fuel with
  | zero => cases h
  | succ fuel =>
    simp only [scan] at h
    split at h
    next => cases h
    next r hs =>
      -- There is no check at the top.
      unfold Walker.step at hs
      split at hs
      next => cases hs
      next =>
        have htop : ∀ c, (internWalker env call).check fuel (internReader call m).machine
            (internReader call m).limits c =
              some (.inl { (internReader call m).limits with nested := true }) := by
          intro c
          show checkTrieInternDepth env call fuel (internReader call m).machine
            (internReader call m).limits c = _
          rw [checkTrieInternDepth, if_pos (.inl rfl)]
        rw [htop] at hs
        simp only at hs
        split at hs
        next => cases hs
        next => cases hs
    next a push s hs =>
      obtain ⟨o', -, rfl⟩ := Option.map_eq_some_iff.mp h
      simp [Output.prepend]

theorem modify_congr {f g : BTN → BTN} (h : f (t.node p) = g (t.node p)) :
    t.modify p f = t.modify p g := by
  rw [Trie.modify, h, Trie.modify]

theorem modify_self {f : BTN → BTN} (h : f (t.node p) = t.node p) : t.modify p f = t := by
  rw [Trie.modify, h, Function.update_eq_self]

theorem modify_modify (f g : BTN → BTN) : (t.modify p f).modify p g = t.modify p (g ∘ f) := by
  simp [Trie.modify]

theorem RecordUpdate.refl (a : BTN) : RecordUpdate a a := ⟨rfl, id, rfl, rfl, rfl, rfl⟩

theorem RecordUpdate.trans {a b c : BTN} (h : RecordUpdate a b) (h' : RecordUpdate b c) :
    RecordUpdate a c :=
  ⟨h.cp.trans h'.cp, fun hc => h.nodeType (h'.nodeType hc), h.child.trans h'.child,
    h.parent.trans h'.parent, h.symbol.trans h'.symbol, h.free.trans h'.free⟩

/-- The record of a leaf after its maintenance. -/
def markRecord (found constTag : Bool) (n : BTN) : BTN :=
  if found then n else n.makeLeafNode.mapInstr (upgradeInstrTypeToSuccess constTag)

/-- The record of a leaf after `undelete_branch`. -/
def undeleteRecord (n : BTN) : BTN :=
  if n.isDeletedNode then
    { n with instr := (0x3 &&& n.instr) ||| (~~~0x3 &&& n.status), status := validNodeStatus }
  else n

theorem markRecord_update (found constTag : Bool) (n : BTN) :
    RecordUpdate (markRecord found constTag n) n := by
  unfold markRecord
  split
  · exact .refl n
  · exact markNewLeaf_update n constTag

theorem undeleteRecord_update (n : BTN) : RecordUpdate (undeleteRecord n) n := by
  unfold undeleteRecord
  split
  · exact undelete_update n
  · exact .refl n

/-- The record of a node after `safe_delete_branch`. -/
def safeDeleteRecord (n : BTN) : BTN :=
  { n with status := n.instr, instr := (n.instr &&& 0x3) ||| trieNoCpFail }

theorem safeDeleteRecord_update (n : BTN) : RecordUpdate (safeDeleteRecord n) n :=
  safeDelete_update n

theorem safeDeleteBranch_eq (t : Trie) (p : BTNptr) :
    t.safeDeleteBranch p = t.modify p safeDeleteRecord := rfl

theorem undeleteBranch_eq (t : Trie) (p : BTNptr) :
    t.undeleteBranch p = t.modify p undeleteRecord := by
  unfold undeleteBranch
  split
  next h => exact modify_congr (if_pos h).symm
  next h => exact (modify_self (f := undeleteRecord) (if_neg h)).symm

/-- The end of an insertion changes the record of the leaf. -/
theorem finishLeaf_eq (r : ChkIns) (constTag : Bool) :
    finishLeaf r constTag = r.trie.modify r.node
      (undeleteRecord ∘ markRecord r.found constTag) := by
  have hmark : (if r.found = true then r.trie else r.trie.markNewLeaf r.node constTag) =
      r.trie.modify r.node (markRecord r.found constTag) := by
    split
    next h => exact (modify_self (f := markRecord r.found constTag) (if_pos h)).symm
    next h => exact modify_congr (if_neg h).symm
  rw [finishLeaf, hmark, undeleteBranch_eq, modify_modify]

theorem finishLeaf_update (found constTag : Bool) (n : BTN) :
    RecordUpdate ((undeleteRecord ∘ markRecord found constTag) n) n :=
  (undeleteRecord_update _).trans (markRecord_update found constTag n)

/-- A call that returns. -/
theorem trieInternChkIns_done
    (h : trieInternChkIns env call fuel t m = some (.done t' m' leaf flag)) :
    ∃ path s, internScan env call fuel m = some ⟨path, .done s⟩ ∧ path ≠ [] ∧
      t' = finishLeaf (internPath env call t path) s.constTag ∧
      leaf = (internPath env call t path).node ∧ m' = s.machine.undoAnswerBindings := by
  rw [trieInternChkIns_eq] at h
  obtain ⟨⟨path, last⟩, ho, he⟩ := Option.map_eq_some_iff.mp h
  cases last with
  | abort s reason => cases he
  | done s =>
    cases he
    exact ⟨path, s, ho, internScan_ne_nil ho, rfl, rfl, rfl⟩

/-- A call that aborts. -/
theorem trieInternChkIns_abort
    (h : trieInternChkIns env call fuel t m = some (.abort t' m' reason)) :
    ∃ path s, internScan env call fuel m = some ⟨path, .abort s reason⟩ ∧ path ≠ [] ∧
      t' = (if reason = .cyclicDelete then
        (internPath env call t path).trie.safeDeleteBranch (internPath env call t path).node
        else (internPath env call t path).trie) ∧ m' = s.machine := by
  rw [trieInternChkIns_eq] at h
  obtain ⟨⟨path, last⟩, ho, he⟩ := Option.map_eq_some_iff.mp h
  cases last with
  | done s => cases he
  | abort s reason' =>
    cases he
    exact ⟨path, s, ho, internScan_ne_nil ho, rfl, rfl⟩

/-! ### Leaves -/

/-- Below a node without children there is no path. -/
theorem AtPath.bottom (hwf : TrieWF t) (hq : AtPath t u q) (hchild : (t.node q).child = .chain [])
    (hp : AtPath t w p) (hpre : u <+: w) : u = w := by
  by_contra hne
  obtain ⟨l, rfl⟩ := hpre
  cases l with
  | nil => exact hne (List.append_nil u).symm
  | cons s l =>
    obtain ⟨c, hc⟩ := hp.take (u.length + 1)
    have htake : (u ++ s :: l).take (u.length + 1) = u ++ [s] := by
      rw [List.take_length_add_append]
      rfl
    rw [htake] at hc
    obtain ⟨hpar, -, hm⟩ := hc.snoc hwf
    rw [hpar.node_unique hwf hq, hchild] at hm
    exact List.not_mem_nil hm

/-- A term in the trie: its path leads to a node without children. -/
def HasTerm (t : Trie) (w : List Symbol) : Prop :=
  w ≠ [] ∧ ∃ q, AtPath t w q ∧ (t.node q).child = .chain []

theorem HasTerm.modify {f : BTN → BTN} (hf : RecordUpdate (f (t.node p)) (t.node p))
    (h : HasTerm t w) : HasTerm (t.modify p f) w := by
  obtain ⟨hne, q, hq, hc⟩ := h
  exact ⟨hne, q, hf.atPath_iff.mpr hq, by rw [(hf.fields q).2.1]; exact hc⟩

theorem ne_root_of_atPath (h : AtPath t w q) (hne : w ≠ []) : q ≠ t.root := by
  rintro rfl
  exact hne (h.path_unique (.root h.root_ne))

/-- Other terms stay when a leaf is deleted, and the deleted one goes. -/
theorem deleteBranch_terms (hwf : TrieWF t) (hcounts : CountsExact t) (hw : HasTerm t w)
    (hl : AtPath t w leaf) :
    ∃ t', t.deleteBranch leaf .root = some t' ∧ TrieWF t' ∧ CountsExact t' ∧
      (∀ q, ¬ AtPath t' w q) ∧ ∀ u, HasTerm t u → u ≠ w → HasTerm t' u := by
  obtain ⟨hne, q, hq, hc⟩ := hw
  cases hq.node_unique hwf hl
  obtain ⟨t', ht', hspec⟩ := deleteBranch_spec hwf hcounts (hl.live hwf) hc (.inl rfl)
  refine ⟨t', ht', hspec.wf, hspec.exact, fun p hp => ?_, fun u hu hne' => ?_⟩
  · cases (hspec.atPath hp).node_unique hwf hl
    exact hspec.gone (hp.live hspec.wf)
  · obtain ⟨hune, p, hp, hpc⟩ := hu
    have hlive : t'.Live p :=
      hspec.stays p u w (hp.live hwf) hp hl fun hpre => hne' (hp.bottom hwf hpc hl hpre)
    exact ⟨hune, p, hspec.atPath_of_live hp hlive, hspec.bottom p hlive hpc⟩

/-! ### Runs -/

/-- A trie with the paths of the terms that were interned and not deleted since. -/
structure InternState where
  trie : Trie
  terms : List (List Symbol)

/-- A call that interns the term with this path, a call that aborts when it has inserted this
path, both with the size of the enumerator array at the end, and a deletion. -/
inductive InternEvent where
  | intern (call : InternCall) (path : List Symbol) (size : Nat)
  | abort (call : InternCall) (path : List Symbol) (size : Nat)
  | delete (path : List Symbol)

/-- The steps of a run, in any memory with an enumerator array. The choice points of the engine
hold nodes in use. -/
inductive InternStep (env : Env) : InternState → InternEvent → InternState → Prop where
  | intern {s : InternState} {call : InternCall} {fuel : Nat} {m m' : Machine}
      {t' : Trie} {leaf : BTNptr} {flag : Bool} {path : List Symbol}
      {r : Reader InternLimits} :
      0 < m.numTrievars → (∀ p ∈ call.choicePoints, s.trie.Live p) →
      trieInternChkIns env call fuel s.trie m = some (.done t' m' leaf flag) →
      internScan env call fuel m = some ⟨path, .done r⟩ →
      InternStep env s (.intern call path r.machine.numTrievars) ⟨t', path :: s.terms⟩
  | abort {s : InternState} {call : InternCall} {fuel : Nat} {m m' : Machine}
      {t' : Trie} {reason : InternAbort} {path : List Symbol} {r : Reader InternLimits} :
      0 < m.numTrievars → (∀ p ∈ call.choicePoints, s.trie.Live p) →
      trieInternChkIns env call fuel s.trie m = some (.abort t' m' reason) →
      internScan env call fuel m = some ⟨path, .abort r reason⟩ →
      InternStep env s (.abort call path r.machine.numTrievars) ⟨t', s.terms⟩
  | delete {s : InternState} {t' : Trie} {leaf : BTNptr} {path : List Symbol} :
      path ∈ s.terms → AtPath s.trie path leaf → s.trie.deleteBranch leaf .root = some t' →
      InternStep env s (.delete path) ⟨t', s.terms.filter (· ≠ path)⟩

/-- Runs from the empty trie with a condition on every step. -/
inductive InternRun (env : Env) (ok : InternState → InternEvent → Prop) : InternState → Prop where
  | start : InternRun env ok ⟨emptyTrie, []⟩
  | step {s s' : InternState} {e : InternEvent} :
      InternRun env ok s → InternStep env s e s' → ok s e → InternRun env ok s'

/-- The counters are exact, every term is in the trie, and the deletion of a term removes it and
no other. -/
structure InternOK (s : InternState) : Prop where
  counts : CountsExact s.trie
  reachable : ∀ w ∈ s.terms, ∃ q, AtPath s.trie w q
  delete : ∀ w ∈ s.terms, ∀ leaf, AtPath s.trie w leaf →
    ∃ t', s.trie.deleteBranch leaf .root = some t' ∧ (∀ q, ¬ AtPath t' w q) ∧
      ∀ u ∈ s.terms, u ≠ w → ∃ q, AtPath t' u q

/-- The condition on a step: chains that are hashed have nine nodes, and the path of the term
is neither above nor below that of another term. -/
def InternFits (s : InternState) : InternEvent → Prop
  | .intern call path _ => HashExact call s.trie path ∧
      (∀ q, AtPath s.trie path q → (s.trie.node q).child = .chain []) ∧
      ∀ u ∈ s.terms, u <+: path → u = path
  | .abort call path _ => HashExact call s.trie path ∧ ∀ u ∈ s.terms, u <+: path → u = path
  | .delete _ => True

/-- What holds in every state of a run. -/
structure InternInv (s : InternState) : Prop where
  wf : TrieWF s.trie
  counts : CountsExact s.trie
  terms : ∀ w ∈ s.terms, HasTerm s.trie w

/-- Terms that the path does not go through keep their leaves. -/
theorem InternedSpec.hasTerm {r : ChkIns} (h : InternedSpec t path r) (hw : HasTerm t w)
    (hpre : w <+: path → w = path) : HasTerm r.trie w := by
  obtain ⟨hne, q, hq, hc⟩ := hw
  refine ⟨hne, q, h.atPath w q hq, ?_⟩
  rw [h.child w q hq fun hcond => hcond.2 (hpre hcond.1)]
  exact hc

theorem InternInv.step {s s' : InternState} {e : InternEvent} (h : InternInv s)
    (hstep : InternStep env s e s') (hfits : InternFits s e) : InternInv s' := by
  cases hstep with
  | @intern call fuel m m' t' leaf flag path r _ hlive hrun hscan =>
    obtain ⟨path', s₁, hscan', hne, rfl, -, -⟩ := trieInternChkIns_done hrun
    rw [hscan] at hscan'
    cases hscan'
    obtain ⟨hexact, hleaf, habove⟩ := hfits
    have hspec := internPath_spec h.wf env call path
    have hcounts := internPath_countsExact env h.wf h.counts hlive hexact
    have hu := finishLeaf_update (internPath env call s.trie path).found r.constTag
      ((internPath env call s.trie path).trie.node (internPath env call s.trie path).node)
    rw [finishLeaf_eq]
    constructor
    case wf =>
      exact hspec.wf.modify (hspec.node.live hspec.wf) (ne_root_of_atPath hspec.node hne) hu
    case counts => exact hcounts.modify hu
    case terms =>
      intro w hw
      apply HasTerm.modify hu
      rcases List.mem_cons.mp hw with rfl | hw
      · refine ⟨hne, _, hspec.node, ?_⟩
        by_cases hl : s.trie.Live (internPath env call s.trie w).node
        · obtain ⟨u, hu'⟩ := h.wf.reach _ hl
          cases (hspec.atPath u _ hu').path_unique hspec.node
          rw [hspec.child _ _ hu' fun hcond => hcond.2 rfl]
          exact hleaf _ hu'
        · exact hspec.new hl
      · exact hspec.hasTerm (h.terms w hw) (habove w hw)
  | @abort call fuel m m' t' reason path r _ hlive hrun hscan =>
    obtain ⟨path', s₁, hscan', hne, rfl, -⟩ := trieInternChkIns_abort hrun
    rw [hscan] at hscan'
    cases hscan'
    obtain ⟨hexact, habove⟩ := hfits
    have hspec := internPath_spec h.wf env call path
    have hcounts := internPath_countsExact env h.wf h.counts hlive hexact
    have hu := safeDeleteRecord_update
      ((internPath env call s.trie path).trie.node (internPath env call s.trie path).node)
    have hterms : ∀ w ∈ s.terms, HasTerm (internPath env call s.trie path).trie w :=
      fun w hw => hspec.hasTerm (h.terms w hw) (habove w hw)
    rw [safeDeleteBranch_eq]
    split
    · constructor
      case wf =>
        exact hspec.wf.modify (hspec.node.live hspec.wf) (ne_root_of_atPath hspec.node hne) hu
      case counts => exact hcounts.modify hu
      case terms => exact fun w hw => HasTerm.modify hu (hterms w hw)
    · exact ⟨hspec.wf, hcounts, hterms⟩
  | @delete t' leaf path hmem hleaf hdel =>
    obtain ⟨t'', ht'', hwf, hcounts, -, hkeep⟩ :=
      deleteBranch_terms h.wf h.counts (h.terms path hmem) hleaf
    rw [hdel] at ht''
    cases ht''
    refine ⟨hwf, hcounts, fun w hw => ?_⟩
    obtain ⟨hw, hne⟩ := List.mem_filter.mp hw
    exact hkeep w (h.terms w hw) (of_decide_eq_true hne)

theorem emptyTrie_countsExact : CountsExact emptyTrie := by
  simp [CountsExact, Live, emptyTrie]

theorem InternRun.inv {s : InternState} (h : InternRun env InternFits s) : InternInv s := by
  induction h with
  | start => exact ⟨emptyTrie_wf, emptyTrie_countsExact, by simp⟩
  | step _ hstep hfits ih => exact ih.step hstep hfits

/-! ### Small calls -/

/-! ### Constants -/

/-- A memory without bindings. -/
def freeMachine : Machine where
  mem a := .ref a
  hreg := 0
  tableTop := 512
  varEnumerator := 0
  numTrievars := 512
  trail := []

/-- No structures. -/
def defaultEnv : Env := ⟨fun _ => 0, 0, 0⟩

/-- The call for an integer, with hashing forbidden or allowed. -/
def integerCall (expand : Bool) (n : Nat) : InternCall :=
  ⟨.const .int n, false, expand, [], 2000, 1000000⟩

/-- Intern an integer. -/
def internInteger (s : InternState) (call : Bool × Nat) : InternState :=
  let path := [encodeTrieConstant .int call.2]
  ⟨finishLeaf (internPath defaultEnv (integerCall call.1 call.2) s.trie path) true,
    path :: s.terms⟩

theorem internInteger_step (s : InternState) (call : Bool × Nat) :
    InternStep defaultEnv s
      (.intern (integerCall call.1 call.2) [encodeTrieConstant .int call.2] 512)
      (internInteger s call) := by
  apply InternStep.intern (m := freeMachine) (r := ⟨freeMachine, 0, true, ⟨true, 0, 2000⟩⟩)
  · decide
  · exact fun p hp => absurd hp List.not_mem_nil
  · show trieInternChkIns defaultEnv (integerCall call.1 call.2) 2 s.trie freeMachine = _
    rw [trieInternChkIns_eq]
    rfl
  · rfl

theorem internInteger_run (calls : List (Bool × Nat)) :
    InternRun defaultEnv (fun _ _ => True) (calls.foldl internInteger ⟨emptyTrie, []⟩) := by
  induction calls using List.reverseRecOn with
  | nil => exact .start
  | append_singleton calls call ih =>
    rw [List.foldl_append]
    exact ih.step (internInteger_step _ call) trivial

/-- In a run whose steps meet the condition, the trie is in order at every moment. -/
theorem internRun_ok {s : InternState} (h : InternRun env InternFits s) : InternOK s := by
  have hinv := h.inv
  constructor
  case counts => exact hinv.counts
  case reachable =>
    intro w hw
    obtain ⟨-, q, hq, -⟩ := hinv.terms w hw
    exact ⟨q, hq⟩
  case delete =>
    intro w hw leaf hl
    obtain ⟨t', ht', -, -, hgone, hkeep⟩ :=
      deleteBranch_terms hinv.wf hinv.counts (hinv.terms w hw) hl
    refine ⟨t', ht', hgone, fun u hu hne => ?_⟩
    obtain ⟨-, q, hq, -⟩ := hkeep u (hinv.terms u hu) hne
    exact ⟨q, hq⟩

/-- One interned integer. -/
theorem internRun_ok_integer : InternOK (internInteger ⟨emptyTrie, []⟩ (true, 7)) := by
  apply internRun_ok
  refine .step .start (internInteger_step _ (true, 7)) ⟨?_, ?_, by simp⟩
  · intro u s q _ hq
    exact absurd rfl hq.root_ne
  · intro q hq
    exact absurd rfl hq.root_ne

instance : (child : Child) → Decidable (CountOK child)
  | .chain _ => isTrue trivial
  | .hash ht => inferInstanceAs (Decidable (ht.numContents = ht.buckets.flatten.length))

/-- Ten integers with hashing forbidden, then the first of them again with hashing allowed. -/
def lateCalls : List (Bool × Nat) := (List.range 10).map (fun n => (false, n)) ++ [(true, 0)]

def lateHashing : InternState := lateCalls.foldl internInteger ⟨emptyTrie, []⟩

theorem InternOK.not_of_count {s : InternState} (hl : s.trie.Live p)
    (hc : ¬ CountOK (s.trie.node p).child) : ¬ InternOK s :=
  fun h => hc (h.counts p hl)

theorem lateHashing_not_ok : ¬ InternOK lateHashing := by
  apply InternOK.not_of_count (p := 1)
  · decide +kernel
  · decide +kernel

/-- The table of ten nodes has the counter nine. -/
theorem internRun_lateHashing : ¬ ∀ s, InternRun defaultEnv (fun _ _ => True) s → InternOK s :=
  fun h => lateHashing_not_ok (h lateHashing (internInteger_run lateCalls))

end XSBEngine.Tries
