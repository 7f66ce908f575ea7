import XSBEngine.Tries.Intern

/-!
# Paths of interned terms

What an insertion by `trie_intern_chk_ins` does to the paths, records and counters of the trie.
-/

namespace XSBEngine.Tries

open Trie Terms StackTraversal

variable {t t' : Trie} {p q : BTNptr} {u w path : List Symbol} {env : Env} {call : InternCall}

/-! ### The choice point check -/

theorem AtPath.isTrieRoot (hwf : TrieWF t) (h : AtPath t w p) :
    (t.node p).isTrieRoot = true ↔ p = t.root := by
  constructor
  · intro hr
    by_contra hne
    have hlt := hwf.node_type p (h.live hwf) hne
    rw [BTN.isTrieRoot, beq_iff_eq] at hr
    rw [hr] at hlt
    exact absurd hlt (by decide)
  · rintro rfl
    exact (hwf.root_live h.root_ne).2.1

/-- The parents of every node lead to the root. -/
theorem climbToRoot_eq (hwf : TrieWF t) {fuel : Nat} (h : AtPath t w p)
    (hf : w.length ≤ fuel) : climbToRoot t fuel p = t.root := by
  induction fuel generalizing p w with
  | zero =>
    cases h with
    | root _ => rfl
    | step _ _ _ => simp at hf
  | succ fuel ih =>
    unfold climbToRoot
    split
    next hcond =>
      have hne : p ≠ t.root := by
        intro he
        rw [(h.isTrieRoot hwf).mpr he] at hcond
        exact absurd hcond.2 (by simp)
      obtain ⟨v, rfl, hv⟩ := h.parent hne
      apply ih hv
      simp only [List.length_append, List.length_singleton] at hf
      omega
    next hcond =>
      by_contra hne
      apply hcond
      refine ⟨(hwf.alloc.live_lt p (h.live hwf)).1, ?_⟩
      exact Bool.eq_false_iff.mpr fun hr => hne ((h.isTrieRoot hwf).mp hr)

/-- With choice points in use the check asks whether there is one of an interned trie. -/
theorem internedTrieCpsCheck_eq (hwf : TrieWF t) {choicePoints : List BTNptr}
    (hlive : ∀ p ∈ choicePoints, t.Live p) :
    internedTrieCpsCheck t choicePoints t.root =
      choicePoints.any fun p => (t.node p).trieType = internTrieTT := by
  unfold internedTrieCpsCheck
  rw [Bool.eq_iff_iff, List.any_eq_true, List.any_eq_true]
  apply exists_congr
  intro p
  apply and_congr_right
  intro hp
  obtain ⟨w, hw⟩ := hwf.reach p (hlive p hp)
  have hlen := hw.length_lt hwf
  rw [climbToRoot_eq hwf hw (by omega)]
  simp

theorem PathSpec.expand_eq {v : List Symbol} {r : ChkIns} (h : PathSpec t v path r)
    (hwf : TrieWF t) (hlive : ∀ p ∈ call.choicePoints, t.Live p) :
    call.expand r.trie = call.expand t := by
  unfold InternCall.expand
  rw [internedTrieCpsCheck_eq h.wf fun p hp => h.live p (hlive p hp),
    internedTrieCpsCheck_eq hwf hlive]
  have hany : (call.choicePoints.any fun p => (r.trie.node p).trieType = internTrieTT) =
      call.choicePoints.any fun p => (t.node p).trieType = internTrieTT := by
    rw [Bool.eq_iff_iff, List.any_eq_true, List.any_eq_true]
    apply exists_congr
    intro p
    apply and_congr_right
    intro hp
    rw [(h.kept p (hlive p hp)).trieType]
  rw [hany]

/-! ### The root -/

theorem internRoot_of_root (env : Env) (h : t.root ≠ 0) : internRoot env t = t := if_neg h

theorem internRoot_of_empty (hwf : TrieWF t) (env : Env) (h : t.root = 0) :
    TrieWF (internRoot env t) ∧ (internRoot env t).root ≠ 0 ∧
      (∀ q, (internRoot env t).Live q ↔ q = (internRoot env t).root) ∧
      ((internRoot env t).node (internRoot env t).root).child = .chain [] := by
  unfold internRoot
  rw [if_pos h]
  exact newBasicTrie_spec hwf h _ _

theorem internRoot_record (env : Env) (h : t.root = 0) :
    ((internRoot env t).node (internRoot env t).root).instr = trieRoot ∧
      ((internRoot env t).node (internRoot env t).root).nodeType = trieRootNT := by
  unfold internRoot
  rw [if_pos h]
  simp [newBasicTrie, newBtn]

/-- What the insertion of the symbols of a term does to a trie, which may have no root yet. -/
structure InternedSpec (t : Trie) (path : List Symbol) (r : ChkIns) : Prop where
  wf : TrieWF r.trie
  live : ∀ q, t.Live q → r.trie.Live q
  kept : ∀ q, t.Live q → SameRecord (r.trie.node q) (t.node q)
  child : ∀ u q, AtPath t u q → ¬ (u <+: path ∧ u ≠ path) →
    (r.trie.node q).child = (t.node q).child
  atPath : ∀ u q, AtPath t u q → AtPath r.trie u q
  node : AtPath r.trie path r.node
  paths : ∀ u q, AtPath r.trie u q → ¬ t.Live q →
    u <+: path ∧ (u ≠ [] → Fresh (r.trie.node q))
  new : ¬ t.Live r.node → (r.trie.node r.node).child = .chain []
  found : path ≠ [] → (r.found = true ↔ t.Live r.node)
  root : t.root = 0 → instrKind (r.trie.node r.trie.root).instr ≠ trieNoCpFail ∧
    (r.trie.node r.trie.root).nodeType ||| hashedNodeMask = trieRootNT ||| hashedNodeMask

theorem internPath_spec (hwf : TrieWF t) (env : Env) (call : InternCall) (path : List Symbol) :
    InternedSpec t path (internPath env call t path) := by
  unfold internPath
  by_cases hr : t.root = 0
  · obtain ⟨hwf0, hr0, hlive0, hchild0⟩ := internRoot_of_empty hwf env hr
    have hroot : AtPath (internRoot env t) [] (internRoot env t).root := .root hr0
    have h : PathSpec (internRoot env t) [] path _ := insertPath_spec call.expand
      internTrieTT hwf0 hroot true
    generalize insertPath call.expand internTrieTT ⟨internRoot env t, true, (internRoot env t).root⟩
      path = r at h
    have hnolive := hwf.root_zero hr
    have hnil : ∀ u, AtPath r.trie u (internRoot env t).root → u = [] :=
      fun u hu => hu.path_unique (h.atPath _ _ hroot)
    constructor
    case wf => exact h.wf
    case live => exact fun q hq => absurd hq (hnolive q)
    case kept => exact fun q hq => absurd hq (hnolive q)
    case child => exact fun u q hu _ => absurd (hu.live hwf) (hnolive q)
    case atPath => exact fun u q hu => absurd (hu.live hwf) (hnolive q)
    case node => exact h.node
    case paths =>
      intro u q hu _
      by_cases hq : (internRoot env t).Live q
      · rw [hlive0] at hq
        rw [hnil u (hq ▸ hu)]
        exact ⟨List.nil_prefix, fun hne => absurd rfl hne⟩
      · obtain ⟨-, hpre, -, hfresh⟩ := h.paths u q hu hq
        exact ⟨hpre, fun _ => hfresh⟩
    case new =>
      intro _
      by_cases hq : (internRoot env t).Live r.node
      · rw [hlive0] at hq
        have hpath : path = [] := hnil path (hq ▸ h.node)
        rw [hq, h.child [] _ hroot (by simp [hpath]), hchild0]
      · exact h.new hq
    case found =>
      intro hne
      rw [h.found hne, hlive0]
      exact iff_of_false (fun he => hne (hnil path (he ▸ h.node))) (hnolive _)
    case root =>
      intro _
      have hkept := h.kept _ ((hlive0 _).mpr rfl)
      obtain ⟨hinstr, htype⟩ := internRoot_record env hr
      rw [h.root, hkept.kind, hkept.nodeType, hinstr, htype]
      exact ⟨by decide, rfl⟩
  · rw [internRoot_of_root env hr]
    have h : PathSpec t [] path _ := insertPath_spec call.expand
      internTrieTT hwf (.root hr) true
    generalize insertPath call.expand internTrieTT ⟨t, true, t.root⟩ path = r at h
    constructor
    case wf => exact h.wf
    case live => exact h.live
    case kept => exact h.kept
    case child => exact fun u q hu hn => h.child u q hu fun hc => hn hc.2
    case atPath => exact h.atPath
    case node => exact h.node
    case paths =>
      intro u q hu hq
      obtain ⟨-, hpre, -, hfresh⟩ := h.paths u q hu hq
      exact ⟨hpre, fun _ => hfresh⟩
    case new => exact h.new
    case found => exact h.found
    case root => exact fun h0 => absurd h0 hr

/-- Every chain that the insertion hashes has nine nodes at that moment. -/
def HashExact (call : InternCall) (t : Trie) (path : List Symbol) : Prop :=
  ∀ u s q, u ++ [s] <+: path → AtPath t u q → HashifyExact (call.expand t) t q s

theorem internPath_countsExact (env : Env) (hwf : TrieWF t) (hcounts : CountsExact t)
    (hlive : ∀ p ∈ call.choicePoints, t.Live p) (hexact : HashExact call t path) :
    CountsExact (internPath env call t path).trie := by
  unfold internPath
  by_cases hr : t.root = 0
  · obtain ⟨hwf0, hr0, hlive0, hchild0⟩ := internRoot_of_empty hwf env hr
    have hnolive := hwf.root_zero hr
    have hlive' : ∀ p ∈ call.choicePoints, (internRoot env t).Live p :=
      fun p hp => absurd (hlive p hp) (hnolive p)
    apply insertPath_countsExact hwf0 (.root hr0) _
      (fun u r h => h.expand_eq hwf0 hlive') fun u s q _ hq => ?_
    · intro q hq
      rw [(hlive0 q).mp hq, hchild0]
      trivial
    · apply hashifyExact_nil
      rw [(hlive0 q).mp (hq.live hwf0), hchild0]
  · rw [internRoot_of_root env hr]
    exact insertPath_countsExact hwf (.root hr) hcounts (fun u r h => h.expand_eq hwf hlive) hexact

end XSBEngine.Tries
