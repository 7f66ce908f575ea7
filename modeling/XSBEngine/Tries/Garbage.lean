import XSBEngine.Tries.SoftDelete

/-!
# The garbage list of interned tries

`trie_dispose_nr`, `trie_undispose` and `reclaim_uninterned_nr`, `XSB/emu/tr_utils.c:2085–2331`,
together with `trie_intern_chk_ins` over whole runs.
-/

namespace XSBEngine.Tries

open Function List StackTraversal Terms Trie

/-! ### The operations -/

/-- The list of garbage roots, as a map from the indexes of tries to their lists of leaves. An
index occurs once in the list, since `getIGRnode` looks for it first. -/
abbrev IGRlist := Nat → Option (List BTNptr)

/-- `getIGRnode`: the node for a root is made if there is none. -/
def getIGRnode (igr : IGRlist) (rootn : Nat) : IGRlist :=
  match igr rootn with
  | none => update igr rootn (some [])
  | some _ => igr

/-- `getAndRemoveIGRnode`, for the list that is left. -/
def removeIGRnode (igr : IGRlist) (rootn : Nat) : IGRlist := update igr rootn none

/-- `insertLeaf`. The search for the leaf in the list is not compiled. -/
def insertLeaf (igr : IGRlist) (rootn : Nat) (leafn : BTNptr) : IGRlist :=
  update igr rootn ((igr rootn).map (leafn :: ·))

/-- `trie_dispose_nr`. -/
def trieDisposeNr (igr : IGRlist) (t : Trie) (rootidx : Nat) (leaf : BTNptr) : IGRlist × Trie :=
  (insertLeaf (getIGRnode igr rootidx) rootidx leaf, t.safeDeleteBranch leaf)

/-- `trie_undispose`: only the first leaf of the list is taken off. -/
def trieUndispose (igr : IGRlist) (t : Trie) (rootIdx : Nat) (leafn : BTNptr) : IGRlist × Trie :=
  let igr := getIGRnode igr rootIdx
  match (igr rootIdx).getD [] with
  | [] => (igr, t)
  | leaf :: next =>
    let igr :=
      if leaf = leafn then
        if next = [] then removeIGRnode igr rootIdx
        else update igr rootIdx (some next)
      else igr
    (igr, t.undeleteBranch leafn)

/-- `reclaim_uninterned_nr`, with the leaves that `delete_branch` is called for. -/
def reclaimUninternedNr (igr : IGRlist) (t : Trie) (rootidx : Nat) :
    Option (IGRlist × Trie × List BTNptr) :=
  match igr rootidx with
  | none => some (igr, t, [])
  | some leaves => (reclaimLoop leaves t).map fun r => (removeIGRnode igr rootidx, r.1, r.2)

/-- The garbage list of one trie. -/
def garbage (igr : IGRlist) (rootidx : Nat) : List BTNptr := (igr rootidx).getD []

variable {igr : IGRlist} {rootidx : Nat} {t t' : Trie} {p q leaf : BTNptr}
  {u w path : List Symbol} {env : Env} {call : InternCall}

theorem garbage_getIGRnode : garbage (getIGRnode igr rootidx) rootidx = garbage igr rootidx := by
  unfold getIGRnode garbage
  cases h : igr rootidx with
  | none => simp
  | some leaves => simp [h]

theorem garbage_dispose :
    garbage (trieDisposeNr igr t rootidx leaf).1 rootidx = leaf :: garbage igr rootidx := by
  unfold trieDisposeNr insertLeaf getIGRnode garbage
  cases h : igr rootidx with
  | none => simp
  | some leaves => simp [h]

theorem garbage_undispose (igr : IGRlist) (t : Trie) (rootidx : Nat) (leaf : BTNptr) :
    garbage (trieUndispose igr t rootidx leaf).1 rootidx =
        (match garbage igr rootidx with
        | [] => []
        | p :: next => if p = leaf then next else p :: next) ∧
      (trieUndispose igr t rootidx leaf).2 =
        if garbage igr rootidx = [] then t else t.undeleteBranch leaf := by
  have hg : ((getIGRnode igr rootidx) rootidx).getD [] = garbage igr rootidx := garbage_getIGRnode
  unfold trieUndispose
  simp only
  rw [hg]
  cases hlist : garbage igr rootidx with
  | nil =>
    simp only
    refine ⟨?_, rfl⟩
    rw [garbage_getIGRnode, hlist]
  | cons p next =>
    simp only
    refine ⟨?_, rfl⟩
    by_cases hp : p = leaf
    · rw [if_pos hp, if_pos hp]
      by_cases hn : next = []
      · rw [if_pos hn, hn]
        simp [garbage, removeIGRnode]
      · rw [if_neg hn]
        simp [garbage]
    · rw [if_neg hp, if_neg hp, garbage_getIGRnode, hlist]

/-! ### Runs -/

/-- A trie with the garbage roots, the paths of the terms interned and not deleted since, and
those of the terms that are marked as deleted. -/
structure GarbageState where
  trie : Trie
  igr : IGRlist
  terms : List (List Symbol)
  deleted : List (List Symbol)

/-- A call that interns the term with this path, a call that aborts when it has inserted this
path, and the operations on the leaf of a term. -/
inductive GarbageEvent where
  | intern (call : InternCall) (path : List Symbol)
  | abort (call : InternCall) (path : List Symbol) (reason : InternAbort)
  | dispose (leaf : BTNptr)
  | undispose (leaf : BTNptr)
  | reclaim

/-- A term whose leaf the trie has. -/
def GarbageState.Has (s : GarbageState) (w : List Symbol) : Prop := w ∈ s.terms ∨ w ∈ s.deleted

/-- The steps of a run. -/
inductive GarbageStep (env : Env) (rootidx : Nat) :
    GarbageState → GarbageEvent → GarbageState → Prop where
  | intern {s : GarbageState} {call : InternCall} {fuel : Nat} {m m' : Machine} {t' : Trie}
      {leaf : BTNptr} {flag : Bool} {path : List Symbol} {r : Reader InternLimits} :
      (∀ p ∈ call.choicePoints, s.trie.Live p) →
      trieInternChkIns env call fuel s.trie m = some (.done t' m' leaf flag) →
      internScan env call fuel m = some ⟨path, .done r⟩ →
      GarbageStep env rootidx s (.intern call path)
        ⟨t', s.igr, path :: s.terms, s.deleted.filter (· ≠ path)⟩
  | abort {s : GarbageState} {call : InternCall} {fuel : Nat} {m m' : Machine} {t' : Trie}
      {reason : InternAbort} {path : List Symbol} {r : Reader InternLimits} :
      (∀ p ∈ call.choicePoints, s.trie.Live p) →
      trieInternChkIns env call fuel s.trie m = some (.abort t' m' reason) →
      internScan env call fuel m = some ⟨path, .abort r reason⟩ →
      GarbageStep env rootidx s (.abort call path reason) ⟨t', s.igr, s.terms, s.deleted⟩
  | dispose {s : GarbageState} {path : List Symbol} {leaf : BTNptr} :
      s.Has path → AtPath s.trie path leaf →
      GarbageStep env rootidx s (.dispose leaf)
        ⟨(trieDisposeNr s.igr s.trie rootidx leaf).2, (trieDisposeNr s.igr s.trie rootidx leaf).1,
          s.terms.filter (· ≠ path), path :: s.deleted⟩
  | undispose {s : GarbageState} {path : List Symbol} {leaf : BTNptr} :
      s.Has path → AtPath s.trie path leaf →
      GarbageStep env rootidx s (.undispose leaf)
        ⟨(trieUndispose s.igr s.trie rootidx leaf).2, (trieUndispose s.igr s.trie rootidx leaf).1,
          path :: s.terms, s.deleted.filter (· ≠ path)⟩
  | reclaim {s : GarbageState} {igr' : IGRlist} {t' : Trie} {calls : List BTNptr} :
      reclaimUninternedNr s.igr s.trie rootidx = some (igr', t', calls) →
      GarbageStep env rootidx s .reclaim ⟨t', igr', s.terms, []⟩

/-- Runs from the empty trie with a condition on every step. -/
inductive GarbageRun (env : Env) (rootidx : Nat) (ok : GarbageState → GarbageEvent → Prop) :
    GarbageState → Prop where
  | start : GarbageRun env rootidx ok ⟨emptyTrie, fun _ => none, [], []⟩
  | step {s s' : GarbageState} {e : GarbageEvent} :
      GarbageRun env rootidx ok s → GarbageStep env rootidx s e s' → ok s e →
      GarbageRun env rootidx ok s'

/-- The terms that can be read are those interned and not deleted, and reclaiming deletes every
leaf that is marked as deleted once, and no other. -/
structure GarbageOK (rootidx : Nat) (s : GarbageState) : Prop where
  readable : ∀ w, Readable s.trie w ↔ w ∈ s.terms
  reclaim : ∃ igr' t' calls, reclaimUninternedNr s.igr s.trie rootidx = some (igr', t', calls) ∧
    calls.Nodup ∧ ∀ q, q ∈ calls ↔
      s.trie.Live q ∧ (s.trie.node q).isLeafNode = true ∧ (s.trie.node q).isDeletedNode = true

/-- The condition on a step: chains that are hashed have nine nodes, paths end at leaves and go
through no deleted node, and a leaf is not disposed of while it is on the garbage list. -/
def GarbageFits (rootidx : Nat) (s : GarbageState) : GarbageEvent → Prop
  | .intern call path => HashExact call s.trie path ∧
      (∀ q, AtPath s.trie path q → (s.trie.node q).isLeafNode = true) ∧
      (∀ u, s.Has u → u <+: path → u = path) ∧ OpenAbove s.trie path
  | .abort call path reason => HashExact call s.trie path ∧
      (∀ u, s.Has u → u <+: path → u = path) ∧
      (reason = .cyclicDelete → ∀ u, s.Has u → ¬ path <+: u)
  | .dispose leaf => leaf ∉ garbage s.igr rootidx
  | .undispose _ => True
  | .reclaim => True

/-! ### The invariant -/

/-- A term in the trie whose leaf has the property. -/
def TermAt (P : BTN → Prop) (t : Trie) (w : List Symbol) : Prop :=
  w ≠ [] ∧ OpenAbove t w ∧ ∃ q, AtPath t w q ∧ (t.node q).child = .chain [] ∧ P (t.node q)

/-- What holds in every state of a run, with the garbage list `g`. -/
structure GarbageInv (t : Trie) (terms deleted : List (List Symbol)) (g : List BTNptr) : Prop where
  wf : TrieWF t
  counts : CountsExact t
  alive : ∀ w ∈ terms, TermAt AliveLeaf t w
  dead : ∀ w ∈ deleted, TermAt DeadLeaf t w
  flags : ∀ w q, AtPath t w q → (t.node q).isLeafNode = true → w ∈ terms ∨ w ∈ deleted
  nodup : g.Nodup
  listed : ∀ w ∈ deleted, ∀ q, AtPath t w q → q ∈ g
  valid : ∀ q ∈ g, ∃ w, (w ∈ terms ∨ w ∈ deleted) ∧ AtPath t w q

variable {P Q : BTN → Prop} {terms deleted : List (List Symbol)} {g g' : List BTNptr}
  {f : BTN → BTN}

theorem TermAt.mono (h : TermAt P t w) (hpq : ∀ n, P n → Q n) : TermAt Q t w := by
  obtain ⟨hne, habove, q, hq, hc, hp⟩ := h
  exact ⟨hne, habove, q, hq, hc, hpq _ hp⟩

theorem TermAt.node (hwf : TrieWF t) (h : TermAt P t w) (hq : AtPath t w q) : P (t.node q) := by
  obtain ⟨-, -, p, hp, -, hP⟩ := h
  rw [hq.node_unique hwf hp]
  exact hP

/-- Records above a node are kept by an insertion. -/
theorem OpenAbove.interned {r : ChkIns} (hwf : TrieWF t) (h : InternedSpec t path r)
    (hw : AtPath t w q) (habove : OpenAbove t w) : OpenAbove r.trie w := by
  intro u p hu hne hp
  obtain ⟨p', hp'⟩ := hw.take u.length
  rw [← prefix_iff_eq_take.mp hu] at hp'
  rw [hp.node_unique h.wf (h.atPath u p' hp'), (h.kept p' (hp'.live hwf)).fails_iff]
  exact habove u p' hu hne hp'

theorem TermAt.interned {r : ChkIns} (hwf : TrieWF t) (h : InternedSpec t path r)
    (hp : ∀ a b, SameRecord a b → P b → P a) (hpre : w <+: path → w = path) (hw : TermAt P t w) :
    TermAt P r.trie w := by
  obtain ⟨hne, habove, q, hq, hc, hP⟩ := hw
  refine ⟨hne, habove.interned hwf h hq, q, h.atPath w q hq, ?_, hp _ _ (h.kept q (hq.live hwf)) hP⟩
  rw [h.child w q hq fun hcond => hcond.2 (hpre hcond.1)]
  exact hc

/-- A change of one record above no term and at no other term. -/
theorem OpenAbove.modify (hf : RecordUpdate (f (t.node p)) (t.node p)) (hp : AtPath t path p)
    (hpre : path <+: w → path = w) (habove : OpenAbove t w) : OpenAbove (t.modify p f) w := by
  intro u q hu hne hq
  rw [hf.atPath_iff] at hq
  have hqp : q ≠ p := by
    rintro rfl
    cases hq.path_unique hp
    exact hne (hpre hu)
  rw [modify_node_ne _ _ hqp]
  exact habove u q hu hne hq

theorem TermAt.modify (hf : RecordUpdate (f (t.node p)) (t.node p)) (hp : AtPath t path p)
    (hpre : ¬ path <+: w) (hw : TermAt P t w) : TermAt P (t.modify p f) w := by
  obtain ⟨hne, habove, q, hq, hc, hP⟩ := hw
  refine ⟨hne, habove.modify hf hp fun h => absurd h hpre, q, hf.atPath_iff.mpr hq, ?_, ?_⟩
  · rw [(hf.fields q).2.1]
    exact hc
  · have hqp : q ≠ p := by
      rintro rfl
      cases hq.path_unique hp
      exact hpre (prefix_refl _)
    rw [modify_node_ne _ _ hqp]
    exact hP

theorem TermAt.modify_self (hwf : TrieWF t) (hf : RecordUpdate (f (t.node p)) (t.node p))
    (hw : TermAt P t w) (hp : AtPath t w p) (hQ : Q (f (t.node p))) :
    TermAt Q (t.modify p f) w := by
  obtain ⟨hne, habove, q, hq, hc, -⟩ := hw
  cases hq.node_unique hwf hp
  refine ⟨hne, habove.modify hf hp fun _ => rfl, p, hf.atPath_iff.mpr hp, ?_, ?_⟩
  · rw [(hf.fields p).2.1]
    exact hc
  · rw [modify_node_self]
    exact hQ

namespace GarbageInv

theorem has (h : GarbageInv t terms deleted g) (hw : w ∈ terms ∨ w ∈ deleted) :
    TermAt (fun _ => True) t w := by
  rcases hw with hw | hw
  · exact (h.alive w hw).mono fun _ _ => trivial
  · exact (h.dead w hw).mono fun _ _ => trivial

/-- No path goes on below a term. -/
theorem not_prefix (h : GarbageInv t terms deleted g) (hw : w ∈ terms ∨ w ∈ deleted)
    (hp : TermAt P t path) (hne : w ≠ path) : ¬ path <+: w := by
  intro hpre
  obtain ⟨-, -, p, hp, hc, -⟩ := hp
  obtain ⟨-, -, q, hq, -, -⟩ := h.has hw
  exact hne (hp.bottom h.wf hc hq hpre).symm

/-- The insertion of a path leaves the terms as they are. -/
theorem interned (env : Env) (h : GarbageInv t terms deleted g)
    (hlive : ∀ p ∈ call.choicePoints, t.Live p)
    (hexact : HashExact call t path)
    (hpre : ∀ u, (u ∈ terms ∨ u ∈ deleted) → u <+: path → u = path) :
    GarbageInv (internPath env call t path).trie terms deleted g := by
  have hspec := internPath_spec h.wf env call path
  generalize hr : internPath env call t path = r at hspec ⊢
  constructor
  case wf => exact hspec.wf
  case counts => exact hr ▸ internPath_countsExact env h.wf h.counts hlive hexact
  case alive =>
    intro w hw
    exact (h.alive w hw).interned h.wf hspec (fun a b hab => hab.alive) (hpre w (.inl hw))
  case dead =>
    intro w hw
    exact (h.dead w hw).interned h.wf hspec (fun a b hab => hab.dead) (hpre w (.inr hw))
  case flags =>
    intro w q hq hleaf
    by_cases hl : t.Live q
    · obtain ⟨v, hv⟩ := h.wf.reach q hl
      cases (hspec.atPath v q hv).path_unique hq
      rw [(hspec.kept q hl).isLeafNode] at hleaf
      exact h.flags _ q hv hleaf
    · exfalso
      by_cases hw : w = []
      · subst hw
        have hqr := hq.node_unique hspec.wf (.root hq.root_ne)
        subst hqr
        by_cases hroot : t.root = 0
        · have hbit : ∀ x : Byte, x ||| hashedNodeMask = trieRootNT ||| hashedNodeMask →
              (x &&& leafNodeMask != 0) = false := by
            decide +kernel
          rw [BTN.isLeafNode, hbit _ (hspec.root hroot).2] at hleaf
          exact absurd hleaf (by simp)
        · have hold := hspec.atPath [] t.root (.root hroot)
          rw [hq.node_unique hspec.wf hold] at hl
          exact hl (h.wf.root_live hroot).1
      · rw [((hspec.paths w q hq hl).2 hw).not_leaf] at hleaf
        exact absurd hleaf (by simp)
  case nodup => exact h.nodup
  case listed =>
    intro w hw q hq
    obtain ⟨-, -, p, hp, -, -⟩ := h.dead w hw
    rw [hq.node_unique hspec.wf (hspec.atPath w p hp)]
    exact h.listed w hw p hp
  case valid =>
    intro q hq
    obtain ⟨w, hw, hwq⟩ := h.valid q hq
    exact ⟨w, hw, hspec.atPath w q hwq⟩

section

variable (h : GarbageInv t terms deleted g)
include h

/-- A leaf becomes one in use. -/
theorem revive (hpath : TermAt P t path) (hp : AtPath t path p)
    (hf : RecordUpdate (f (t.node p)) (t.node p)) (ha : AliveLeaf (f (t.node p)))
    (hnodup : g'.Nodup) (hsub : ∀ q ∈ g', q ∈ g) (hkeep : ∀ q ∈ g, q ≠ p → q ∈ g') :
    GarbageInv (t.modify p f) (path :: terms) (deleted.filter (· ≠ path)) g' := by
  have hhas : ∀ w, (w ∈ path :: terms ∨ w ∈ deleted.filter (· ≠ path)) ↔
      (w = path ∨ w ∈ terms ∨ w ∈ deleted) := by
    intro w
    by_cases hw : w = path <;> simp [hw]
  constructor
  case wf => exact h.wf.modify (hp.live h.wf) (ne_root_of_atPath hp hpath.1) hf
  case counts => exact h.counts.modify hf
  case alive =>
    intro w hw
    by_cases hwp : w = path
    · subst hwp
      exact hpath.modify_self h.wf hf hp ha
    · have hmem := mem_of_ne_of_mem hwp hw
      exact (h.alive w hmem).modify hf hp (h.not_prefix (.inl hmem) hpath hwp)
  case dead =>
    intro w hw
    obtain ⟨hmem, hwp⟩ := mem_filter.mp hw
    exact (h.dead w hmem).modify hf hp (h.not_prefix (.inr hmem) hpath (of_decide_eq_true hwp))
  case flags =>
    intro w q hq hleaf
    rw [hf.atPath_iff] at hq
    apply (hhas w).mpr
    by_cases hqp : q = p
    · cases hqp
      exact .inl (hq.path_unique hp)
    · rw [modify_node_ne _ _ hqp] at hleaf
      exact .inr (h.flags w q hq hleaf)
  case nodup => exact hnodup
  case listed =>
    intro w hw q hq
    rw [hf.atPath_iff] at hq
    obtain ⟨hmem, hwp⟩ := mem_filter.mp hw
    apply hkeep q (h.listed w hmem q hq)
    rintro rfl
    exact of_decide_eq_true hwp (hq.path_unique hp)
  case valid =>
    intro q hq
    obtain ⟨w, hw, hwq⟩ := h.valid q (hsub q hq)
    exact ⟨w, (hhas w).mpr (.inr hw), hf.atPath_iff.mpr hwq⟩

/-- A leaf that is not listed is deleted. -/
theorem dispose (hpath : path ∈ terms ∨ path ∈ deleted)
    (hp : AtPath t path p) (hfree : p ∉ g) :
    GarbageInv (t.modify p safeDeleteRecord) (terms.filter (· ≠ path)) (path :: deleted)
      (p :: g) := by
  have halive : AliveLeaf (t.node p) := by
    rcases hpath with hmem | hmem
    · exact (h.alive path hmem).node h.wf hp
    · exact absurd (h.listed path hmem p hp) hfree
  have hf := safeDeleteRecord_update (t.node p)
  have hterm := h.has hpath
  have hhas : ∀ w, (w ∈ terms.filter (· ≠ path) ∨ w ∈ path :: deleted) ↔
      (w = path ∨ w ∈ terms ∨ w ∈ deleted) := by
    intro w
    by_cases hw : w = path <;> simp [hw]
  constructor
  case wf => exact h.wf.modify (hp.live h.wf) (ne_root_of_atPath hp hterm.1) hf
  case counts => exact h.counts.modify hf
  case alive =>
    intro w hw
    obtain ⟨hmem, hwp⟩ := mem_filter.mp hw
    exact (h.alive w hmem).modify hf hp (h.not_prefix (.inl hmem) hterm (of_decide_eq_true hwp))
  case dead =>
    intro w hw
    by_cases hwp : w = path
    · subst hwp
      exact hterm.modify_self h.wf hf hp halive.safeDelete
    · have hmem := mem_of_ne_of_mem hwp hw
      exact (h.dead w hmem).modify hf hp (h.not_prefix (.inr hmem) hterm hwp)
  case flags =>
    intro w q hq hleaf
    rw [hf.atPath_iff] at hq
    apply (hhas w).mpr
    by_cases hqp : q = p
    · cases hqp
      exact .inl (hq.path_unique hp)
    · rw [modify_node_ne _ _ hqp] at hleaf
      exact .inr (h.flags w q hq hleaf)
  case nodup => exact nodup_cons.mpr ⟨hfree, h.nodup⟩
  case listed =>
    intro w hw q hq
    rw [hf.atPath_iff] at hq
    by_cases hwp : w = path
    · subst hwp
      rw [hq.node_unique h.wf hp]
      exact mem_cons_self
    · exact mem_cons_of_mem _ (h.listed w (mem_of_ne_of_mem hwp hw) q hq)
  case valid =>
    intro q hq
    rcases mem_cons.mp hq with rfl | hq
    · exact ⟨path, (hhas path).mpr (.inl rfl), hf.atPath_iff.mpr hp⟩
    · obtain ⟨w, hw, hwq⟩ := h.valid q hq
      exact ⟨w, (hhas w).mpr (.inr hw), hf.atPath_iff.mpr hwq⟩

/-- A node above no term is deleted. -/
theorem cut (hne : path ≠ []) (hp : AtPath t path p)
    (hpre : ∀ u, (u ∈ terms ∨ u ∈ deleted) → ¬ path <+: u) :
    GarbageInv (t.modify p safeDeleteRecord) terms deleted g := by
  have hf := safeDeleteRecord_update (t.node p)
  constructor
  case wf => exact h.wf.modify (hp.live h.wf) (ne_root_of_atPath hp hne) hf
  case counts => exact h.counts.modify hf
  case alive => exact fun w hw => (h.alive w hw).modify hf hp (hpre w (.inl hw))
  case dead => exact fun w hw => (h.dead w hw).modify hf hp (hpre w (.inr hw))
  case flags =>
    intro w q hq hleaf
    rw [hf.atPath_iff] at hq
    by_cases hqp : q = p
    · cases hqp
      rw [modify_node_self] at hleaf
      exact h.flags w p hq hleaf
    · rw [modify_node_ne _ _ hqp] at hleaf
      exact h.flags w q hq hleaf
  case nodup => exact h.nodup
  case listed => exact fun w hw q hq => h.listed w hw q (hf.atPath_iff.mp hq)
  case valid =>
    intro q hq
    obtain ⟨w, hw, hwq⟩ := h.valid q hq
    exact ⟨w, hw, hf.atPath_iff.mpr hwq⟩

/-- Reclaiming deletes the leaves that are marked as deleted. -/
theorem reclaim :
    ∃ t', reclaimLoop g t = some (t', g.filter fun q => (t.node q).isDeletedNode) ∧
      GarbageInv t' terms [] [] := by
  have hend : ∀ q ∈ g, IsEnd t q := by
    intro q hq
    obtain ⟨w, hw, hwq⟩ := h.valid q hq
    obtain ⟨hne, -, p, hp, hc, -⟩ := h.has hw
    rw [← hwq.node_unique h.wf hp] at hc
    exact ⟨w, hne, hwq, hc⟩
  obtain ⟨t', hrun, hshrink, hgone, hstay⟩ := reclaimLoop_spec h.wf h.counts h.nodup hend
  refine ⟨t', hrun, ?_⟩
  constructor
  case wf => exact hshrink.wf
  case counts => exact hshrink.counts
  case alive =>
    intro w hw
    obtain ⟨hne, habove, q, hq, hc, ha⟩ := h.alive w hw
    obtain ⟨v, -, hv, hc'⟩ := hstay q ⟨w, hne, hq, hc⟩ fun _ => ha.not_deleted
    cases (hshrink.atPath v q hv).path_unique hq
    refine ⟨hne, fun u p hu huw hp ↦ ?_, q, hv, hc', (hshrink.kept q (hv.live hshrink.wf)).alive ha⟩
    rw [(hshrink.kept p (hp.live hshrink.wf)).fails_iff]
    exact habove u p hu huw (hshrink.atPath u p hp)
  case dead => simp
  case flags =>
    intro w q hq hleaf
    have hq' := hshrink.atPath w q hq
    have hlive := hq.live hshrink.wf
    rw [(hshrink.kept q hlive).isLeafNode] at hleaf
    rcases h.flags w q hq' hleaf with hw | hw
    · exact .inl hw
    · have hdead := (h.dead w hw).node h.wf hq'
      exact absurd hlive (hgone q (h.listed w hw q hq') hdead.deleted)
  case nodup => exact nodup_nil
  case listed => simp
  case valid => simp

/-- The leaves that are marked as deleted are those of the garbage list that are. -/
theorem mem_deleted (q : BTNptr) :
    q ∈ g.filter (fun q => (t.node q).isDeletedNode) ↔
      t.Live q ∧ (t.node q).isLeafNode = true ∧ (t.node q).isDeletedNode = true := by
  rw [mem_filter]
  constructor
  · rintro ⟨hq, hdel⟩
    obtain ⟨w, hw, hwq⟩ := h.valid q hq
    refine ⟨hwq.live h.wf, ?_, hdel⟩
    rcases hw with hw | hw
    · exact ((h.alive w hw).node h.wf hwq).leaf
    · exact ((h.dead w hw).node h.wf hwq).leaf
  · rintro ⟨hlive, hleaf, hdel⟩
    obtain ⟨w, hwq⟩ := h.wf.reach q hlive
    refine ⟨?_, hdel⟩
    rcases h.flags w q hwq hleaf with hw | hw
    · rw [((h.alive w hw).node h.wf hwq).not_deleted] at hdel
      exact absurd hdel (by simp)
    · exact h.listed w hw q hwq

theorem readable_iff : Readable t w ↔ w ∈ terms := by
  constructor
  · rintro ⟨q, hq, hleaf, hopen⟩
    rcases h.flags w q hq hleaf with hw | hw
    · exact hw
    · exact absurd ((h.dead w hw).node h.wf hq).kind (hopen w q (prefix_refl w) hq)
  · intro hw
    obtain ⟨-, habove, q, hq, -, ha⟩ := h.alive w hw
    exact .of_alive h.wf hq ha habove

end

end GarbageInv

theorem reclaimUninternedNr_eq (igr : IGRlist) (t : Trie) (rootidx : Nat) :
    ∃ igr', garbage igr' rootidx = [] ∧ reclaimUninternedNr igr t rootidx =
      (reclaimLoop (garbage igr rootidx) t).map fun r => (igr', r.1, r.2) := by
  unfold reclaimUninternedNr
  cases h : igr rootidx with
  | none =>
    have hnil : garbage igr rootidx = [] := by simp [garbage, h]
    exact ⟨igr, hnil, by rw [hnil]; rfl⟩
  | some leaves =>
    have hlist : garbage igr rootidx = leaves := by simp [garbage, h]
    exact ⟨removeIGRnode igr rootidx, by simp [garbage, removeIGRnode], by rw [hlist]⟩

/-- The invariant of a state. -/
def GarbageState.Inv (rootidx : Nat) (s : GarbageState) : Prop :=
  GarbageInv s.trie s.terms s.deleted (garbage s.igr rootidx)

/-- The leaf of a term after its insertion is one in use. -/
theorem GarbageInv.finishLeaf_alive (env : Env) (call : InternCall) (constTag : Bool)
    (h : GarbageInv t terms deleted g) (hne : path ≠ [])
    (hleaf : ∀ q, AtPath t path q → (t.node q).isLeafNode = true) :
    AliveLeaf ((undeleteRecord ∘ markRecord (internPath env call t path).found constTag)
      ((internPath env call t path).trie.node (internPath env call t path).node)) := by
  have hspec := internPath_spec h.wf env call path
  generalize internPath env call t path = r at hspec ⊢
  by_cases hl : t.Live r.node
  · obtain ⟨u, hu⟩ := h.wf.reach _ hl
    cases (hspec.atPath u _ hu).path_unique hspec.node
    rw [(hspec.found hne).mpr hl]
    show AliveLeaf (undeleteRecord (r.trie.node r.node))
    have hsame := hspec.kept r.node hl
    rcases h.flags path r.node hu (hleaf r.node hu) with hw | hw
    · exact (hsame.alive ((h.alive path hw).node h.wf hu)).undelete
    · exact (hsame.dead ((h.dead path hw).node h.wf hu)).undelete
  · have hfound : r.found = false := Bool.eq_false_iff.mpr fun hf => hl ((hspec.found hne).mp hf)
    rw [hfound]
    exact (((hspec.paths path r.node hspec.node hl).2 hne).mark constTag).undelete

/-- One step keeps the invariant. -/
theorem GarbageState.Inv.step {s s' : GarbageState} {e : GarbageEvent} (h : s.Inv rootidx)
    (hstep : GarbageStep env rootidx s e s') (hfits : GarbageFits rootidx s e) :
    s'.Inv rootidx := by
  cases hstep with
  | @intern call fuel m m' t' leaf flag path r hlive hrun hscan =>
    obtain ⟨path', s₁, hscan', hne, rfl, -, -⟩ := trieInternChkIns_done hrun
    rw [hscan] at hscan'
    cases hscan'
    obtain ⟨hexact, hleaf, hpre, habove⟩ := hfits
    have hspec := internPath_spec h.wf env call path
    have hmid := h.interned env hlive hexact hpre
    have halive := h.finishLeaf_alive env call r.constTag hne hleaf
    have hterm : TermAt (fun _ => True) (internPath env call s.trie path).trie path := by
      refine ⟨hne, fun u p hu hup hp => ?_, _, hspec.node, ?_, trivial⟩
      · by_cases hl : s.trie.Live p
        · obtain ⟨v, hv⟩ := h.wf.reach p hl
          cases (hspec.atPath v p hv).path_unique hp
          rw [(hspec.kept p hl).fails_iff]
          exact habove u p hu hup hv
        · by_cases hu0 : u = []
          · subst hu0
            rw [hp.node_unique hspec.wf (.root hp.root_ne)]
            have hroot : s.trie.root = 0 := by
              by_contra hr
              have hold := hspec.atPath [] s.trie.root (.root hr)
              rw [hp.node_unique hspec.wf hold] at hl
              exact hl (h.wf.root_live hr).1
            exact (hspec.root hroot).1
          · exact ((hspec.paths u p hp hl).2 hu0).not_fails
      · by_cases hl : s.trie.Live (internPath env call s.trie path).node
        · obtain ⟨u, hu⟩ := h.wf.reach _ hl
          cases (hspec.atPath u _ hu).path_unique hspec.node
          rw [hspec.child path _ hu fun hc => hc.2 rfl]
          obtain ⟨-, -, q, hq, hc, -⟩ := h.has (h.flags path _ hu (hleaf _ hu))
          rw [hu.node_unique h.wf hq]
          exact hc
        · exact hspec.new hl
    rw [finishLeaf_eq]
    exact hmid.revive hterm hspec.node (finishLeaf_update _ _ _) halive hmid.nodup
      (fun q hq => hq) fun q hq _ => hq
  | @abort call fuel m m' t' reason path r hlive hrun hscan =>
    obtain ⟨path', s₁, hscan', hne, rfl, -⟩ := trieInternChkIns_abort hrun
    rw [hscan] at hscan'
    cases hscan'
    obtain ⟨hexact, hpre, hcut⟩ := hfits
    have hmid := h.interned env hlive hexact hpre
    rw [safeDeleteBranch_eq]
    split
    next hr => exact hmid.cut hne (internPath_spec h.wf env call path).node (hcut hr)
    next => exact hmid
  | @dispose path leaf hpath hp =>
    show GarbageInv _ _ _ (garbage _ _)
    rw [garbage_dispose]
    exact h.dispose hpath hp hfits
  | @undispose path leaf hpath hp =>
    obtain ⟨hlist, htrie⟩ := garbage_undispose s.igr s.trie rootidx leaf
    show GarbageInv _ _ _ (garbage _ _)
    simp only
    rw [hlist, htrie]
    cases hg : garbage s.igr rootidx with
    | nil =>
      rw [if_pos rfl]
      -- No leaf is deleted when the list is empty.
      have hdel : ∀ w, w ∉ s.deleted := by
        intro w hw
        obtain ⟨-, -, q, hq, -, -⟩ := h.dead w hw
        have := h.listed w hw q hq
        rw [hg] at this
        exact not_mem_nil this
      have halive : path ∈ s.terms := hpath.resolve_right (hdel path)
      have hself := h.revive (f := id) (h.has hpath) hp (.refl _)
        ((h.alive path halive).node h.wf hp) h.nodup (fun q hq => hq) fun q hq _ => hq
      rw [modify_self (f := id) rfl, hg] at hself
      exact hself
    | cons p next =>
      have hnodup := h.nodup
      rw [hg, nodup_cons] at hnodup
      rw [if_neg (by simp), undeleteBranch_eq]
      have halive : AliveLeaf (undeleteRecord (s.trie.node leaf)) := by
        rcases hpath with hw | hw
        · exact ((h.alive path hw).node h.wf hp).undelete
        · exact ((h.dead path hw).node h.wf hp).undelete
      apply h.revive (h.has hpath) hp (undeleteRecord_update _) halive
      · simp only
        split
        · exact hnodup.2
        · exact nodup_cons.mpr hnodup
      · intro q hq
        rw [hg]
        simp only at hq
        split at hq
        · exact mem_cons_of_mem _ hq
        · exact hq
      · intro q hq hne
        rw [hg] at hq
        simp only
        split
        next hpl => exact mem_of_ne_of_mem (hpl ▸ hne) hq
        next => exact hq
  | @reclaim igr' t' calls hrun =>
    obtain ⟨igr'', hnil, heq⟩ := reclaimUninternedNr_eq s.igr s.trie rootidx
    obtain ⟨t'', hloop, hinv⟩ := h.reclaim
    rw [heq, hloop] at hrun
    cases hrun
    show GarbageInv _ _ _ (garbage _ _)
    rw [hnil]
    exact hinv

theorem GarbageRun.inv {s : GarbageState} (h : GarbageRun env rootidx (GarbageFits rootidx) s) :
    s.Inv rootidx := by
  induction h with
  | start =>
    refine ⟨emptyTrie_wf, emptyTrie_countsExact, by simp, by simp, ?_, nodup_nil, by simp,
      by simp [garbage]⟩
    exact fun w q hq _ => absurd rfl hq.root_ne
  | step _ hstep hfits ih => exact ih.step hstep hfits

/-! ### One term -/

/-- The path of the integer 7. -/
def sevenPath : List Symbol := [encodeTrieConstant .int 7]

/-- The integer 7 interned in the empty trie. -/
def sevenInterned : GarbageState :=
  ⟨(internInteger ⟨emptyTrie, []⟩ (true, 7)).trie, fun _ => none, [sevenPath], []⟩

theorem sevenInterned_step :
    GarbageStep defaultEnv 0 ⟨emptyTrie, fun _ => none, [], []⟩
      (.intern (integerCall true 7) sevenPath) sevenInterned := by
  apply GarbageStep.intern (m := freeMachine) (r := ⟨freeMachine, 0, true, ⟨true, 0, 2000⟩⟩)
  · exact fun p hp => absurd hp not_mem_nil
  · show trieInternChkIns defaultEnv (integerCall true 7) 2 emptyTrie freeMachine = _
    rw [trieInternChkIns_eq]
    rfl
  · rfl

/-- The leaf of the integer 7. -/
def sevenLeaf : BTNptr := (internPath defaultEnv (integerCall true 7) emptyTrie sevenPath).node

theorem sevenLeaf_atPath : AtPath sevenInterned.trie sevenPath sevenLeaf := by
  have h := (internPath_spec emptyTrie_wf defaultEnv (integerCall true 7) sevenPath).node
  show AtPath (finishLeaf (internPath defaultEnv (integerCall true 7) emptyTrie sevenPath) true) _ _
  rw [finishLeaf_eq]
  exact (finishLeaf_update _ _ _).atPath_iff.mpr h

theorem atPath_safeDeleteBranch (h : AtPath t w q) (p : BTNptr) :
    AtPath (t.safeDeleteBranch p) w q :=
  (safeDeleteRecord_update (t.node p)).atPath_iff.mpr h

/-- A second soft deletion overwrites the instruction that the first one has saved. -/
theorem undeleteRecord_twice (n : BTN) :
    (undeleteRecord (safeDeleteRecord (safeDeleteRecord n))).Fails := by
  have hkind : ∀ x : Byte, (((x &&& 0x3) ||| trieNoCpFail) != validNodeStatus) = true ∧
      instrKind ((0x3 &&& (((((x &&& 0x3) ||| trieNoCpFail) &&& 0x3) ||| trieNoCpFail))) |||
        (~~~0x3 &&& ((x &&& 0x3) ||| trieNoCpFail))) = trieNoCpFail := by
    decide +kernel
  have hdel : (safeDeleteRecord (safeDeleteRecord n)).isDeletedNode = true := (hkind n.instr).1
  rw [undeleteRecord, if_pos hdel]
  exact (hkind n.instr).2

/-- A leaf that is disposed of twice stays deleted when it is undisposed. -/
theorem trieUndispose_twice (igr : IGRlist) (t : Trie) (rootidx : Nat) (p : BTNptr) :
    (trieUndispose (trieDisposeNr (trieDisposeNr igr t rootidx p).1
        (trieDisposeNr igr t rootidx p).2 rootidx p).1
      (trieDisposeNr (trieDisposeNr igr t rootidx p).1
        (trieDisposeNr igr t rootidx p).2 rootidx p).2 rootidx p).2 =
      ((t.safeDeleteBranch p).safeDeleteBranch p).undeleteBranch p := by
  rw [(garbage_undispose _ _ _ _).2, if_neg (by rw [garbage_dispose]; simp)]
  rfl

theorem undeleteBranch_twice (t : Trie) (p : BTNptr) :
    ((((t.safeDeleteBranch p).safeDeleteBranch p).undeleteBranch p).node p).Fails := by
  rw [undeleteBranch_eq, safeDeleteBranch_eq, safeDeleteBranch_eq, modify_modify, modify_modify,
    modify_node_self]
  exact undeleteRecord_twice (t.node p)

end XSBEngine.Tries
