import XSBEngine.Tries.InternRuns

/-!
# Basic tries as sets of paths

What insertions of whole terms and deletions do to the paths of a trie,
`XSB/emu/tries.c:447–629` and `XSB/emu/tr_utils.c:1021–1217`.
-/

namespace XSBEngine.Tries

open List Trie

/-- A path leads to a node. -/
def Trie.HasPath (t : Trie) (w : List Symbol) : Prop := ∃ q, AtPath t w q

/-- The symbols of terms are inserted below the root, one term after the other. -/
def insertPaths (expand : Trie → Bool) (trieType : Byte) (t : Trie) (paths : List (List Symbol)) :
    Trie :=
  paths.foldl (fun t path => (insertPath expand trieType ⟨t, false, t.root⟩ path).trie) t

/-- A trie with a root and these paths. -/
structure HasPaths (t : Trie) (paths : List (List Symbol)) : Prop where
  wf : TrieWF t
  root : t.root ≠ 0
  paths : ∀ u, t.HasPath u ↔ u = [] ∨ ∃ path ∈ paths, u <+: path

variable {t : Trie} {q leaf : BTNptr} {u w path : List Symbol} {paths : List (List Symbol)}

theorem Trie.HasPath.of_prefix (h : t.HasPath w) (hu : u <+: w) : t.HasPath u := by
  obtain ⟨q, hq⟩ := h
  rw [prefix_iff_eq_take.mp hu]
  exact hq.take u.length

/-- A node of the new trie is one of the old trie if its path was there. -/
theorem PathSpec.live_iff {v : List Symbol} {r : ChkIns} (h : PathSpec t v path r)
    (hwf : TrieWF t) (hq : AtPath r.trie u q) : t.Live q ↔ t.HasPath u := by
  constructor
  · intro hl
    obtain ⟨w, hw⟩ := hwf.reach q hl
    rw [hq.path_unique (h.atPath w q hw)]
    exact ⟨q, hw⟩
  · rintro ⟨p, hp⟩
    rw [hq.node_unique h.wf (h.atPath u p hp)]
    exact hp.live hwf

theorem HasPaths.snoc (h : HasPaths t paths) (expand : Trie → Bool) (trieType : Byte) :
    HasPaths (insertPath expand trieType ⟨t, false, t.root⟩ path).trie (paths ++ [path]) := by
  have hspec : PathSpec t [] path _ := insertPath_spec expand trieType h.wf (.root h.root) false
  refine ⟨hspec.wf, by rw [hspec.root]; exact h.root, fun u => ?_⟩
  have hiff : (insertPath expand trieType ⟨t, false, t.root⟩ path).trie.HasPath u ↔
      t.HasPath u ∨ u <+: path := by
    constructor
    · rintro ⟨q, hq⟩
      by_cases hl : t.Live q
      · exact .inl ((hspec.live_iff h.wf hq).mp hl)
      · exact .inr (hspec.paths u q hq hl).2.1
    · rintro (⟨q, hq⟩ | hu)
      · exact ⟨q, hspec.atPath u q hq⟩
      · exact Trie.HasPath.of_prefix ⟨_, hspec.node⟩ hu
  simp only [hiff, h.paths, mem_append, mem_singleton, or_and_right, exists_or, exists_eq_left,
    or_assoc]

theorem insertPaths_hasPaths (expand : Trie → Bool) (trieType : Byte) (h : HasPaths t paths)
    (paths' : List (List Symbol)) :
    HasPaths (insertPaths expand trieType t paths') (paths ++ paths') := by
  induction paths' generalizing t paths with
  | nil =>
    rw [append_nil]
    exact h
  | cons path paths' ih =>
    rw [append_cons]
    exact ih (h.snoc expand trieType)

theorem newRoot_hasPaths (symbol : Symbol) (trieType : Byte) :
    HasPaths (emptyTrie.newBasicTrie symbol trieType) [] := by
  obtain ⟨hwf, hroot, hlive, -⟩ := newBasicTrie_spec emptyTrie_wf rfl symbol trieType
  refine ⟨hwf, hroot, fun u => ?_⟩
  constructor
  · rintro ⟨q, hq⟩
    obtain rfl := (hlive q).mp (hq.live hwf)
    exact .inl (hq.path_unique (.root hroot))
  · rintro (rfl | ⟨path, hpath, -⟩)
    · exact ⟨_, .root hroot⟩
    · cases hpath

/-- A trie has the paths of the terms that have been inserted into it, with or without hashing,
and an insertion finds those. -/
theorem insertPaths_set (expand : Trie → Bool) (trieType : Byte) (symbol : Symbol)
    (paths : List (List Symbol)) :
    let t := insertPaths expand trieType (emptyTrie.newBasicTrie symbol trieType) paths
    (∀ u, t.HasPath u ↔ u = [] ∨ ∃ path ∈ paths, u <+: path) ∧
      ∀ s path, (insertPath expand trieType ⟨t, false, t.root⟩ (s :: path)).found = true ↔
        ∃ path' ∈ paths, s :: path <+: path' := by
  have h := insertPaths_hasPaths expand trieType (newRoot_hasPaths symbol trieType) paths
  refine ⟨h.paths, fun s path => ?_⟩
  have hspec : PathSpec _ [] (s :: path) _ :=
    insertPath_spec expand trieType h.wf (.root h.root) false
  rw [hspec.found (cons_ne_nil s path), hspec.live_iff h.wf hspec.node, nil_append]
  show Trie.HasPath _ _ ↔ _
  rw [h.paths]
  simp

/-- A deleted leaf takes its path with it, and every other leaf stays where it is. -/
theorem deleteBranch_leaves {hook : Hook} (h : Reachable t) (hl : IsLeaf t leaf)
    (hh : HookFits t leaf hook) (hw : AtPath t w leaf) : ∃ t', t.deleteBranch leaf hook = some t' ∧
      Reachable t' ∧ ¬ t'.HasPath w ∧ (∀ u q, AtPath t' u q → AtPath t u q) ∧
      ∀ u q, AtPath t u q → IsLeaf t q → q ≠ leaf → AtPath t' u q ∧ IsLeaf t' q := by
  obtain ⟨hwf, hcounts, -⟩ := h.wf
  obtain ⟨t', ht', hspec⟩ := deleteBranch_spec hwf hcounts hl.1 hl.2.2 hh
  refine ⟨t', ht', .delete leaf hook h hl hh ht', ?_, fun u q => hspec.atPath, ?_⟩
  · rintro ⟨q, hq⟩
    have hne : q = leaf := (hspec.atPath hq).node_unique hwf hw
    exact hspec.gone (hne ▸ hq.live hspec.wf)
  · intro u q hq hlq hne
    have hstay : t'.Live q := by
      apply hspec.stays q u w hlq.1 hq hw
      intro hpre
      have huw : u = w := hq.bottom hwf hlq.2.2 hw hpre
      exact hne (hq.node_unique hwf (huw ▸ hw))
    have hpath : AtPath t' u q := hspec.atPath_of_live hq hstay
    refine ⟨hpath, hstay, ?_, hspec.bottom q hstay hlq.2.2⟩
    rw [hspec.root.resolve_right hpath.root_ne]
    exact hlq.2.1

theorem deletedLeaf_leaves : ∃ t', deletedLeaf.deleteBranch 2 .root = some t' ∧ Reachable t' ∧
    ¬ t'.HasPath [⟨.int, 7⟩] := by
  have hroot : Reachable (emptyTrie.newBasicTrie ⟨.int, 0⟩ internTrieTT) :=
    .newRoot _ _ .empty rfl
  have hreach : Reachable deletedLeaf :=
    .safeDelete 2 (.insert 1 ⟨.int, 7⟩ none internTrieTT hroot rfl) ⟨rfl, by decide, rfl⟩
  have hroot' : AtPath deletedLeaf [] (deletedLeaf.node 2).parent := .root (by decide)
  have hpath : AtPath deletedLeaf [⟨.int, 7⟩] 2 := .step hroot' rfl (by decide)
  have hleaf : IsLeaf deletedLeaf 2 := ⟨rfl, by decide, rfl⟩
  have hhook : HookFits deletedLeaf 2 .root := .inl rfl
  obtain ⟨t', ht', hreach', hgone, -⟩ := deleteBranch_leaves hreach hleaf hhook hpath
  exact ⟨t', ht', hreach', hgone⟩

end XSBEngine.Tries
