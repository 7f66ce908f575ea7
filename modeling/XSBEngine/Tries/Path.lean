import Mathlib
import XSBEngine.Tries.Insert

/-!
# Insertion of a path

The symbols of a term are inserted one below the other. The path that results, the nodes that
are new, and the counters of the tables it passes.
-/

namespace XSBEngine.Tries

open List Trie

/-- Insert symbols one below the other. The flag that is left is that of the last symbol. -/
def insertPath (expand : Trie → Bool) (trieType : Byte) (r : ChkIns) (path : List Symbol) :
    ChkIns :=
  path.foldl (fun r symbol => nodeChkIns (expand r.trie) r.trie r.node symbol none trieType) r

variable {t t' : Trie} {p q paren c : BTNptr} {v w path : List Symbol} {expand : Trie → Bool}
  {trieType : Byte} {found : Bool} {symbol : Symbol}

@[simp] theorem insertPath_nil (r : ChkIns) : insertPath expand trieType r [] = r := rfl

theorem insertPath_cons (r : ChkIns) :
    insertPath expand trieType r (symbol :: path) =
      insertPath expand trieType
        (nodeChkIns (expand r.trie) r.trie r.node symbol none trieType) path := rfl

theorem insertPath_append (r : ChkIns) (path' : List Symbol) :
    insertPath expand trieType r (path ++ path') =
      insertPath expand trieType (insertPath expand trieType r path) path' :=
  foldl_append ..

/-- The instruction kinds of new nodes, which are not those of a deleted node. -/
def newKinds : List Byte := [0x5c, 0x60, 0x64, 0x68, 0x6c, 0x70, 0x88]

theorem tnSetInstr_kind (symbol : Symbol) (intrn : Bool) (trieType : Byte) :
    instrKind (tnSetInstr symbol intrn trieType) ∈ newKinds := by
  unfold tnSetInstr
  repeat' split
  all_goals decide

/-- A node as insertion makes it: neither deleted nor a leaf. -/
structure Fresh (n : BTN) : Prop where
  status : n.status = validNodeStatus
  kind : instrKind n.instr ∈ newKinds
  nodeType : n.nodeType ||| hashedNodeMask = hashedNodeMask

theorem SameRecord.fresh {a b : BTN} (h : SameRecord a b) (hb : Fresh b) : Fresh a :=
  ⟨h.status.trans hb.status, h.kind ▸ hb.kind, h.nodeType.trans hb.nodeType⟩

/-- What the insertion of a path below `paren`, the node at `v`, does. -/
structure PathSpec (t : Trie) (v path : List Symbol) (r : ChkIns) : Prop where
  wf : TrieWF r.trie
  root : r.trie.root = t.root
  live : ∀ q, t.Live q → r.trie.Live q
  kept : ∀ q, t.Live q → SameRecord (r.trie.node q) (t.node q)
  /-- Only nodes that the path goes through get new children. -/
  child : ∀ u q, AtPath t u q → ¬ (v <+: u ∧ u <+: v ++ path ∧ u ≠ v ++ path) →
    (r.trie.node q).child = (t.node q).child
  atPath : ∀ u q, AtPath t u q → AtPath r.trie u q
  node : AtPath r.trie (v ++ path) r.node
  paths : ∀ u q, AtPath r.trie u q → ¬ t.Live q →
    v <+: u ∧ u <+: v ++ path ∧ u ≠ v ∧ Fresh (r.trie.node q)
  new : ¬ t.Live r.node → (r.trie.node r.node).child = .chain []
  found : path ≠ [] → (r.found = true ↔ t.Live r.node)

theorem PathSpec.refl (hwf : TrieWF t) (hp : AtPath t v paren) (found : Bool) :
    PathSpec t v [] ⟨t, found, paren⟩ where
  wf := hwf
  root := rfl
  live _ h := h
  kept q _ := .refl _
  child _ _ _ _ := rfl
  atPath _ _ h := h
  node := by rw [append_nil]; exact hp
  paths u q h hq := absurd (h.live hwf) hq
  new h := absurd (hp.live hwf) h
  found h := absurd rfl h

/-- One more symbol at the end of a path. -/
theorem PathSpec.snoc {r r' : ChkIns} {kind : Byte} (h : PathSpec t v path r)
    (hwf : TrieWF t) (hs : ChkInsSpec r.trie r.node symbol kind r')
    (hkind : kind ∈ newKinds) : PathSpec t v (path ++ [symbol]) r' := by
  have hlive : ∀ q, t.Live q → r'.trie.Live q := fun q hq => (hs.live q).mpr (.inl (h.live q hq))
  have hiff : ∀ {u q}, AtPath r'.trie u q ↔ AtPath r.trie u q ∨
      (q = r'.node ∧ ∃ v, AtPath r.trie v r.node ∧ u = v ++ [symbol]) := hs.atPath_iff h.wf
  have hmono : ∀ u q, AtPath r.trie u q → AtPath r'.trie u q := fun u q hq => hiff.mpr (.inl hq)
  have hnode : AtPath r'.trie (v ++ (path ++ [symbol])) r'.node :=
    hiff.mpr (.inr ⟨rfl, _, h.node, (append_assoc ..).symm⟩)
  -- A node longer than the path so far is found only if the first trie has it.
  have hfound : r'.found = true ↔ t.Live r'.node := by
    refine ⟨fun hf => ?_, fun hl => hs.found.mpr (h.live _ hl)⟩
    have hl := hs.found.mp hf
    by_contra hn
    obtain ⟨u, hu⟩ := h.wf.reach _ hl
    have hpre := (h.paths u _ hu hn).2.1.length_le
    rw [(hmono u _ hu).path_unique hnode] at hpre
    simp only [length_append, length_singleton] at hpre
    omega
  constructor
  case wf => exact hs.wf
  case root => exact hs.root.trans h.root
  case live => exact hlive
  case kept => exact fun q hq => (hs.kept q (h.live q hq)).1.trans (h.kept q hq)
  case child =>
    intro u q hu hnot
    have hq := hu.live hwf
    have hne : q ≠ r.node := by
      rintro rfl
      have hpath := (h.atPath u _ hu).path_unique h.node
      subst hpath
      exact hnot ⟨prefix_append _ _, by simp [← append_assoc], by simp⟩
    rw [(hs.kept q (h.live q hq)).2 hne]
    apply h.child u q hu
    rintro ⟨hv, hpre, hneq⟩
    refine hnot ⟨hv, ?_, ?_⟩
    · rw [← append_assoc]
      exact hpre.trans (prefix_append _ _)
    · rintro rfl
      have := hpre.length_le
      simp only [length_append, length_singleton] at this
      omega
  case atPath => exact fun u q hu => hmono u q (h.atPath u q hu)
  case node => exact hnode
  case paths =>
    intro u q hu hq
    rcases hiff.mp hu with hu' | ⟨rfl, x, hx, rfl⟩
    · obtain ⟨hv, hpre, hne, hfresh⟩ := h.paths u q hu' hq
      refine ⟨hv, ?_, hne, (hs.kept q (hu'.live h.wf)).1.fresh hfresh⟩
      rw [← append_assoc]
      exact hpre.trans (prefix_append _ _)
    · cases hx.path_unique h.node
      refine ⟨by simp [append_assoc], by simp, by simp, ?_⟩
      obtain ⟨-, hst, hk, hnt⟩ := hs.new (Bool.not_eq_true _ ▸ fun hf => hq (hfound.mp hf))
      exact ⟨hst, hk ▸ hkind, hnt⟩
  case new => exact fun hn => (hs.new (Bool.not_eq_true _ ▸ fun hf => hn (hfound.mp hf))).1
  case found => exact fun _ => hfound

/-- Insertion of a path below the node at `v`. -/
theorem insertPath_spec (expand : Trie → Bool) (trieType : Byte) (hwf : TrieWF t)
    (hp : AtPath t v paren) (found : Bool) :
    PathSpec t v path (insertPath expand trieType ⟨t, found, paren⟩ path) := by
  induction path using List.reverseRecOn with
  | nil => exact .refl hwf hp found
  | append_singleton path symbol ih =>
    rw [insertPath_append, insertPath_cons, insertPath_nil]
    apply ih.snoc hwf _ (tnSetInstr_kind symbol false trieType)
    have hlive := ih.node.live ih.wf
    exact nodeChkIns_spec none ih.wf hlive

/-! ### Counters -/

theorem searchSibling_congr {chain : List BTNptr}
    (h : ∀ c ∈ chain, (t'.node c).symbol = (t.node c).symbol) :
    t'.searchSibling symbol chain = t.searchSibling symbol chain := by
  induction chain with
  | nil => rfl
  | cons x rest ih =>
    rw [searchSibling, searchSibling, h x mem_cons_self,
      ih fun c hc => h c (mem_cons_of_mem _ hc)]

theorem HashifyExact.congr {expand : Bool} (h : HashifyExact expand t p symbol)
    (hc : (t'.node p).child = (t.node p).child)
    (hs : ∀ c ∈ (t.node p).child.nodes, (t'.node c).symbol = (t.node c).symbol) :
    HashifyExact expand t' p symbol := by
  intro he nodes hchain
  rw [hc] at hchain
  have hsearch : t'.searchSibling symbol nodes = t.searchSibling symbol nodes :=
    searchSibling_congr fun c hm => hs c (by rw [hchain]; exact hm)
  rw [hsearch]
  exact h he nodes hchain

theorem hashifyExact_nil {expand : Bool} (h : (t.node p).child = .chain []) :
    HashifyExact expand t p symbol := by
  intro _ nodes hchain
  rw [h] at hchain
  cases hchain
  intro hlt
  exact absurd hlt (by decide)

/-- Counters stay exact when every chain that the path hashes has nine nodes. -/
theorem insertPath_countsExact (hwf : TrieWF t) (hp : AtPath t v paren) (hcounts : CountsExact t)
    {e : Bool} (hexpand : ∀ u r, PathSpec t v u r → expand r.trie = e)
    (hexact : ∀ u s q, u ++ [s] <+: path → AtPath t (v ++ u) q → HashifyExact e t q s) :
    CountsExact (insertPath expand trieType ⟨t, found, paren⟩ path).trie := by
  induction path using List.reverseRecOn with
  | nil => exact hcounts
  | append_singleton path symbol ih =>
    have hspec : PathSpec t v path (insertPath expand trieType ⟨t, found, paren⟩ path) :=
      insertPath_spec expand trieType hwf hp found
    rw [insertPath_append]
    apply nodeChkIns_countsExact hspec.wf (hspec.node.live hspec.wf)
    · exact ih fun u s q hu hq => hexact u s q (hu.trans (prefix_append _ _)) hq
    · rw [hexpand path _ hspec]
      by_cases hl : t.Live (insertPath expand trieType ⟨t, found, paren⟩ path).node
      · obtain ⟨u, hu⟩ := hwf.reach _ hl
        cases (hspec.atPath u _ hu).path_unique hspec.node
        refine (hexact path symbol _ (prefix_refl _) hu).congr ?_ fun c hc => ?_
        · exact hspec.child _ _ hu fun h => h.2.2 rfl
        · exact (hspec.kept c (hwf.child_live _ hl c hc).1).symbol
      · exact hashifyExact_nil (hspec.new hl)

end XSBEngine.Tries
