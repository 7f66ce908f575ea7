import XSBEngine.Terms.HeapTerms
import XSBEngine.Tries.InternRuns

/-!
# Reading interned terms

`bottomupunify` and `follow_par_chain`, `XSB/emu/tries.c:643–662` and `1820–1854`: the symbols
are collected from the leaf up to the root and made into a term on the heap.
-/

namespace XSBEngine.Tries

open List PrefixTerms StackTraversal Terms Trie

/-! ### From the leaf to the root -/

/-- `trie_const_instr`. -/
def trieConstInstr (instr : Byte) : Bool := instr &&& 0xf8 == 0x70

/-- `follow_par_chain`, with the term stack from its top. No path is longer than the number of
records. -/
def followParChain (t : Trie) : Nat → BTNptr → List (Symbol × Bool) → List (Symbol × Bool)
  | 0, _, termStack => termStack
  | fuel + 1, leaf, termStack =>
    if leaf ≠ 0 ∧ (t.node leaf).isTrieRoot = false then
      let sym := (t.node leaf).symbol
      let mod := decide (sym.tag = .struct) && trieConstInstr (t.node leaf).instr
      followParChain t fuel (t.node leaf).parent ((sym, mod) :: termStack)
    else termStack

/-- `bottomupunify`. A term that is not a variable has no result. -/
def bottomupunify (arity : Nat → Nat) (t : Trie) (leaf : BTNptr) (fuel : Nat) (term : Cell)
    (s : BottomUp) : Option BottomUp :=
  match deref s.mem fuel term with
  | some (.ref gen) =>
    (macroMakeHeapTerm arity gen (followParChain t (t.nextStruct + 1) leaf []) s).map
      fun (returnedVal, s) => s.write gen returnedVal
  | _ => none

variable {t t' t₂ t₃ : Trie} {p q leaf leaf₃ : BTNptr} {u v w path : List Symbol} {env : Env}
  {call : InternCall} {fuel : Nat} {m m' m₃ : Machine} {flag : Bool} {reason : InternAbort}
  {arity : Nat → Nat} {τ τ₂ : Tuple Symbol Addr} {n : BTN}

/-! ### No structure is taken for a constant -/

/-- A node of a structure has not the instruction of a constant, whether it is deleted or not. -/
def Plainly (n : BTN) : Prop :=
  n.symbol.tag = .struct → trieConstInstr n.instr = false ∧ trieConstInstr n.status = false

/-- A trie of interned terms. -/
structure InternTrie (t : Trie) : Prop where
  wf : TrieWF t
  plainly : ∀ q, t.Live q → q ≠ t.root → Plainly (t.node q)

/-- The bits that `trieConstInstr` reads. -/
theorem const_bits : ∀ b : Byte, instrKind b &&& 0xf8 = b &&& 0xf8 ∧
    trieConstInstr ((b &&& 0x3) ||| trieNoCpFail) = false ∧ (0x3 &&& b) &&& 0xf8 = 0 ∧
    (instrKind b = 0x60 → trieConstInstr (b + 4) = false) := by
  decide +kernel

theorem trieConstInstr_kind (instr : Byte) :
    trieConstInstr (instrKind instr) = trieConstInstr instr := by
  rw [trieConstInstr, (const_bits instr).1, trieConstInstr]

theorem SameRecord.plainly {a b : BTN} (h : SameRecord a b) (hb : Plainly b) : Plainly a := by
  intro htag
  obtain ⟨hi, hs⟩ := hb (h.symbol ▸ htag)
  rw [← trieConstInstr_kind, h.kind, trieConstInstr_kind, h.status]
  exact ⟨hi, hs⟩

theorem undeleteRecord_plainly (h : Plainly n) : Plainly (undeleteRecord n) := by
  have hlow : ∀ a : Byte, (0x3 &&& a) &&& 0xf8 = 0 := fun a => (const_bits a).2.2.1
  have hhigh : ∀ b : Byte, (~~~0x3 &&& b) &&& 0xf8 = b &&& 0xf8 := by
    intro b
    rw [BitVec.and_comm (~~~0x3)]
    exact (const_bits b).1
  have hor : ∀ a b c : Byte, (a ||| b) &&& c = (a &&& c) ||| (b &&& c) := by
    intro a b c
    ext i hi
    simp only [BitVec.getElem_and, BitVec.getElem_or]
    cases a[i] <;> cases b[i] <;> simp
  unfold undeleteRecord
  split
  · intro htag
    have hvalid : trieConstInstr validNodeStatus = false := by decide
    refine ⟨?_, hvalid⟩
    show trieConstInstr ((0x3 &&& n.instr) ||| (~~~0x3 &&& n.status)) = false
    rw [trieConstInstr, hor, hlow, hhigh, show (0 : Byte) = 0#8 from rfl, BitVec.zero_or]
    exact (h htag).2
  · exact h

/-- The node of a structure that has been inserted just now. -/
theorem markRecord_plainly {found constTag : Bool} (h : Plainly n)
    (hnew : found = false → n.symbol.tag = .struct → instrKind n.instr = 0x60) :
    Plainly (markRecord found constTag n) := by
  have key : ∀ b : Byte, instrKind b = 0x60 → trieConstInstr (b + 4) = false :=
    fun b => (const_bits b).2.2.2
  cases found with
  | true => exact h
  | false =>
    intro htag
    refine ⟨?_, (h htag).2⟩
    cases constTag with
    | false => exact (h htag).1
    | true => exact key _ (hnew rfl htag)

theorem InternTrie.modify {f : BTN → BTN} (h : InternTrie t) (hp : t.Live p) (hne : p ≠ t.root)
    (hu : RecordUpdate (f (t.node p)) (t.node p)) (hf : Plainly (f (t.node p))) :
    InternTrie (t.modify p f) where
  wf := h.wf.modify hp hne hu
  plainly q hq hqr := by
    by_cases hqp : q = p
    · rw [hqp, modify_node_self]
      exact hf
    · rw [modify_node_ne t f hqp]
      exact h.plainly q ((hu.live_iff q).mp hq) hqr

/-- One symbol of a term. -/
theorem InternTrie.chkIns {paren : BTNptr} (h : InternTrie t) (expand : Bool) (symbol : Symbol)
    (trieType : Byte) (hp : t.Live paren) :
    InternTrie (nodeChkIns expand t paren symbol none trieType).trie ∧
      ((nodeChkIns expand t paren symbol none trieType).found = false → symbol.tag = .struct →
        instrKind ((nodeChkIns expand t paren symbol none trieType).trie.node
          (nodeChkIns expand t paren symbol none trieType).node).instr = 0x60) := by
  have hspec : ChkInsSpec t paren symbol (instrKind (tnSetInstr symbol false trieType))
      (nodeChkIns expand t paren symbol none trieType) := nodeChkIns_spec none h.wf hp
  generalize nodeChkIns expand t paren symbol none trieType = r at hspec ⊢
  have hkind : r.found = false → symbol.tag = .struct →
      instrKind (r.trie.node r.node).instr = 0x60 := by
    intro hfound htag
    have hstr : instrKind trieTryStr = 0x60 := by decide
    rw [(hspec.new hfound).2.2.1, tnSetInstr, htag]
    exact hstr
  refine ⟨⟨hspec.wf, fun q hq hne => ?_⟩, hkind⟩
  by_cases hql : t.Live q
  · exact (hspec.kept q hql).1.plainly (h.plainly q hql (hspec.root ▸ hne))
  · have hqn := ((hspec.live q).mp hq).resolve_left hql
    have hfound : r.found = false :=
      Bool.eq_false_iff.mpr fun hf => hql (hqn ▸ hspec.found.mp hf)
    intro htag
    rw [hqn, hspec.symbol] at htag
    rw [hqn, ← trieConstInstr_kind, hkind hfound htag, (hspec.new hfound).2.1]
    decide

/-- The symbols of a term. -/
theorem InternTrie.inserted (h : InternTrie t) (env : Env) (call : InternCall)
    (path : List Symbol) :
    InternTrie (internPath env call t path).trie ∧
      ((internPath env call t path).found = false →
        ((internPath env call t path).trie.node (internPath env call t path).node).symbol.tag
          = .struct →
        instrKind ((internPath env call t path).trie.node
          (internPath env call t path).node).instr = 0x60) := by
  have hroot : InternTrie (internRoot env t) := by
    by_cases hr : t.root = 0
    · obtain ⟨hwf, -, hlive, -⟩ := internRoot_of_empty h.wf env hr
      exact ⟨hwf, fun q hq hne => absurd ((hlive q).mp hq) hne⟩
    · rw [internRoot_of_root env hr]
      exact h
  induction path using List.reverseRecOn with
  | nil =>
    refine ⟨hroot, fun hfound => ?_⟩
    cases hfound
  | append_singleton path symbol ih =>
    have hspec := internPath_spec h.wf env call path
    have hlive := hspec.node.live hspec.wf
    have hlast := internPath_spec h.wf env call (path ++ [symbol])
    rw [internPath, insertPath_append, insertPath_cons, insertPath_nil] at hlast ⊢
    obtain ⟨hnew, hkind⟩ := ih.1.chkIns (call.expand (internPath env call t path).trie) symbol
      internTrieTT hlive
    refine ⟨hnew, fun hfound htag => hkind hfound ?_⟩
    obtain ⟨-, hsymbol, -⟩ := hlast.node.snoc hlast.wf
    rw [← hsymbol]
    exact htag

theorem emptyTrie_internTrie : InternTrie emptyTrie where
  wf := emptyTrie_wf
  plainly q hq := by simp [Live, emptyTrie] at hq

/-- A call that returns. -/
theorem InternTrie.done (h : InternTrie t)
    (hcall : trieInternChkIns env call fuel t m = some (.done t' m' leaf flag)) :
    InternTrie t' := by
  obtain ⟨path, s, -, hne, rfl, -, -⟩ := trieInternChkIns_done hcall
  obtain ⟨htrie, hkind⟩ := h.inserted env call path
  have hnode := (internPath_spec h.wf env call path).node
  have hlive := hnode.live htrie.wf
  have hroot := ne_root_of_atPath hnode hne
  rw [finishLeaf_eq]
  apply htrie.modify hlive hroot (finishLeaf_update _ _ _)
  exact undeleteRecord_plainly (markRecord_plainly (htrie.plainly _ hlive hroot) hkind)

/-- The symbols on the way to the root are those of the path. -/
theorem followParChain_eq (h : InternTrie t) {fuel : Nat} (hp : AtPath t w p)
    (hf : w.length < fuel) (termStack : List (Symbol × Bool)) :
    followParChain t fuel p termStack = w.map (·, false) ++ termStack := by
  induction fuel generalizing p w termStack with
  | zero => omega
  | succ fuel ih =>
    unfold followParChain
    by_cases hne : p = t.root
    · have hcond : ¬(p ≠ 0 ∧ (t.node p).isTrieRoot = false) := by
        rintro ⟨-, hr⟩
        rw [(hp.isTrieRoot h.wf).mpr hne] at hr
        cases hr
      rw [if_neg hcond]
      subst hne
      cases (AtPath.root hp.root_ne).path_unique hp
      rfl
    · have hlive := hp.live h.wf
      have hcond : p ≠ 0 ∧ (t.node p).isTrieRoot = false :=
        ⟨(h.wf.alloc.live_lt p hlive).1,
          Bool.eq_false_iff.mpr fun hr => hne ((hp.isTrieRoot h.wf).mp hr)⟩
      obtain ⟨v, rfl, hv⟩ := hp.parent hne
      have hmod : (decide ((t.node p).symbol.tag = .struct) && trieConstInstr (t.node p).instr) =
          false := by
        by_cases htag : (t.node p).symbol.tag = .struct
        · rw [(h.plainly p hlive hne htag).1, Bool.and_false]
        · rw [decide_eq_false htag, Bool.false_and]
      rw [if_pos hcond]
      simp only
      rw [hmod, ih hv (by simpa using hf), map_append, append_assoc]
      rfl

/-! ### The symbols that are inserted -/

/-- Cells that are not compound pass, and nothing is asked of the others. -/
theorem internWalker_checks (env : Env) (call : InternCall) :
    (internWalker env call).Checks fun _ _ => True where
  simple _ _ lim _ hc _ := ⟨0, { lim with nested := true }, if_pos (.inr hc), trivial⟩
  compound _ _ _ _ _ _ _ _ _ := trivial

theorem undoAnswerBindings_numTrievars (m : Machine) :
    m.undoAnswerBindings.numTrievars = m.numTrievars := by
  show (m.trail.foldl (fun m a => m.write a (.ref a)) m).numTrievars = _
  generalize m.trail = trail
  induction trail generalizing m with
  | nil => rfl
  | cons a trail ih => exact ih (m.write a (.ref a))

/-- A call that returns has inserted the symbols of its term. -/
theorem internScan_symbols {s : Reader InternLimits} (hok : m.OK)
    (hτ : Denotes env.arity m.mem m.User [call.term] τ)
    (h : internScan env call fuel m = some ⟨path, .done s⟩) :
    path = (Numbering.start m.numTrievars).symbols τ.tokens ∧
      s.machine.numTrievars = ((Numbering.start m.numTrievars).after τ.tokens).size := by
  have hb : Bound m (internReader call m).machine (.start m.numTrievars) id := hok.bound.trail []
  have hpushed : List.Forall₂ (Pushed m (internReader call m).machine) [call.term] [call.term] :=
    .cons (.inl rfl) .nil
  have hpeel : (internWalker env call).Peels m (fun _ _ => True) (.start m.numTrievars) τ.tokens
      (internReader call m) ([call.term] ++ []) [] 0 :=
    Walker.peel (internWalker_checks env call) rfl hτ hb rfl hpushed trivial
  rcases hpeel with ⟨s', φ, hr, hb', -⟩ | ⟨l, s', c, tail, hr, hblocked⟩
  · obtain ⟨n, hn⟩ := hr.done (internWalker env call).lawful
    have he := scan_unique (internWalker env call).lawful h (hn n le_rfl)
    cases he
    exact ⟨rfl, hb'.size.symm⟩
  · obtain ⟨n, o, ho, he⟩ := hr.of_scan (internWalker env call).lawful h
    obtain ⟨l', last⟩ := o
    have hlast : last = .done s := (congrArg Output.last he).symm
    rw [hlast] at ho
    exact (not_done_of_blocked hblocked.not_emit ho).elim

/-! ### Reading back -/

/-- Unifying a new variable with the path gives a variant of the term, wherever the heap is. -/
def ReadsBack (arity : Nat → Nat) (t : Trie) (leaf : BTNptr) (τ : Tuple Symbol Addr) : Prop :=
  ∀ (s : BottomUp) (gen : Addr), s.addrStack = [] → s.mem gen = .ref gen →
    ¬(gen.area = .heap ∧ s.hreg ≤ gen.pos) →
    ∃ fuel s' τ', bottomupunify arity t leaf fuel (.ref gen) s = some s' ∧
      Denotes arity s'.mem (s'.Uses gen s.hreg) [.ref gen] τ' ∧ Variant τ' τ

theorem bottomupunify_var {s : BottomUp} {gen : Addr} (hgen : s.mem gen = .ref gen)
    (h : InternTrie t) (hleaf : AtPath t w leaf) :
    bottomupunify arity t leaf (fuel + 1) (.ref gen) s =
      (macroMakeHeapTerm arity gen (w.map (·, false)) s).map
        fun (returnedVal, s) => s.write gen returnedVal := by
  have hlen := hleaf.length_lt h.wf
  have hchain : followParChain t (t.nextStruct + 1) leaf [] = w.map (·, false) ++ [] :=
    followParChain_eq h hleaf (by omega) []
  rw [append_nil] at hchain
  rw [bottomupunify, deref, if_pos hgen, hchain]

/-- The term is read back just if each of its variables has one number, which is legible. -/
theorem readsBack_iff {size : Nat} {cells : Cell} {mem : Memory} {user : Addr → Prop}
    (hpos : 0 < size) (h : InternTrie t) (hτ : Denotes arity mem user [cells] τ)
    (hleaf : AtPath t ((Numbering.start size).symbols τ.tokens) leaf) :
    ReadsBack arity t leaf τ ↔ (Numbering.start size : Numbering Addr).Resolves τ.tokens := by
  have hone : τ.length = 1 := hτ.length
  have hspells : Spells arity 1 ((Numbering.start size).symbols τ.tokens) :=
    hone ▸ Numbering.symbols_spells _ hτ.ranked hτ.plain
  rw [← decode_variant_iff hpos hτ.symbols]
  constructor
  · intro hreads
    obtain ⟨fuel, s', τ', hrun, hτ', hvariant⟩ := hreads
      ⟨fun a ↦ .ref a, 0, fun _ ↦ none, []⟩ ⟨.tableSpace, 0⟩ rfl rfl fun hc ↦ Area.noConfusion hc.1
    cases fuel with
    | zero => cases hrun
    | succ fuel =>
      rw [bottomupunify_var (by rfl) h hleaf] at hrun
      obtain ⟨⟨c, s1⟩, hmade, rfl⟩ := Option.map_eq_some_iff.mp hrun
      cases hd : decode (fun _ => none) 0 ((Numbering.start size).symbols τ.tokens) with
      | none =>
        have hground : Grounded (fun _ => none) ((Numbering.start size).symbols τ.tokens) :=
          Numbering.symbols_grounded (Numbering.start_wf hpos)
            (fun i hi => absurd hi (Nat.not_lt_zero i)) hτ.symbols
        exact absurd hτ' (macroMakeHeapTerm_no_term hspells rfl (fun hc => Area.noConfusion hc.1) hd
          hground hmade (.inl rfl) τ')
      | some toks =>
        obtain ⟨c', s2, hmade', τ₂, hτ2, htoks⟩ : ∃ c' s2,
            macroMakeHeapTerm arity ⟨.tableSpace, 0⟩ _ ⟨fun a => .ref a, 0, fun _ => none, []⟩ =
              some (c', s2) ∧ _ :=
          macroMakeHeapTerm_makes hspells rfl (fun hc => Area.noConfusion hc.1) hd
        rw [hmade] at hmade'
        cases hmade'
        cases hτ2.unique hτ'
        have hlen : τ'.length = τ.length := hτ'.length.trans hτ.length.symm
        exact ⟨toks, rfl, htoks.trans ((variant_iff hτ'.ranked hτ.ranked hlen).mp hvariant)⟩
  · rintro ⟨toks, hd, hvariant⟩ s gen hstack hgen hold
    obtain ⟨c, s', hmade, τ', hτ', htoks⟩ := macroMakeHeapTerm_makes hspells hstack hold hd
    refine ⟨1, s'.write gen c, τ', ?_, hτ', ?_⟩
    · rw [bottomupunify_var hgen h hleaf, hmade]
      rfl
    · have hlen : τ'.length = τ.length := hτ'.length.trans hτ.length.symm
      exact (variant_iff hτ'.ranked hτ.ranked hlen).mpr (htoks.symm.trans hvariant)

/-! ### Leaves as names of terms -/

/-- The leaf stands for the term in every trie that still has its paths: the term is read back
from it, and calls with an array of at least this size get it just for variants of the term. -/
def StandsFor (env : Env) (t : Trie) (leaf : BTNptr) (size : Nat) (τ : Tuple Symbol Addr) :
    Prop :=
  ∀ t₂, InternTrie t₂ → (∀ u q, AtPath t u q → AtPath t₂ u q) →
    ReadsBack env.arity t₂ leaf τ ∧
      ∀ call fuel m τ₂ t₃ m₃ leaf₃ flag, m.OK → size ≤ m.numTrievars →
        Denotes env.arity m.mem m.User [call.term] τ₂ →
        trieInternChkIns env call fuel t₂ m = some (.done t₃ m₃ leaf₃ flag) →
        (leaf₃ = leaf ↔ Variant τ τ₂)

/-- A term none of whose variables has two numbers is a variant of its numbered form. -/
theorem splitTuple_variant_iff {g : Numbering Addr} {rank : Symbol → Nat} (hτ : τ.Ranked rank)
    (hτ2 : τ₂.Ranked rank) (hlen : τ.length = τ₂.length) (h : ¬g.Recurs τ.tokens) :
    Variant (g.splitTuple τ).1 τ₂ ↔ Variant τ τ₂ := by
  have hself := (Numbering.split_variant_iff g τ.tokens).mpr h
  rw [variant_iff (Numbering.ranked_splitTuple g hτ) hτ2
    ((Numbering.length_splitTuple g τ).trans hlen), variant_iff hτ hτ2 hlen,
    (Numbering.splitTuple_tokens g τ).1]
  exact ⟨hself.symm.trans, hself.trans⟩

/-- Calls whose terms have fewer compound terms below the top than either limit return. -/
theorem trieInternChkIns_returns (hok : m.OK)
    (hτ : Denotes env.arity m.mem m.User [call.term] τ)
    (hlim : compounds τ.tokens < min call.cyclicCheckSize call.maxTableAnswerMetric) :
    ∃ fuel t' m' leaf flag,
      trieInternChkIns env call fuel t m = some (.done t' m' leaf flag) := by
  have hpass : ∀ n m (lim : InternLimits) c, lim.depthCtr + 1 < lim.working →
      ∃ lim' : InternLimits, checkTrieInternDepth env call n m lim c = some (.inl lim') ∧
        lim'.depthCtr ≤ lim.depthCtr + 1 ∧ lim'.working = lim.working ∧
          (c.isCompound = false → lim'.depthCtr = lim.depthCtr) := by
    intro n m lim c hlt
    unfold checkTrieInternDepth
    split
    next => exact ⟨_, rfl, Nat.le_succ _, rfl, fun _ => rfl⟩
    next hc =>
      have hnot : ¬lim.working ≤ lim.depthCtr + 1 := not_le.mpr hlt
      rw [if_neg hnot]
      exact ⟨_, rfl, le_rfl, rfl, fun he => absurd (.inr he) hc⟩
  have hk : (internWalker env call).Checks fun j lim => lim.depthCtr + j < lim.working := by
    constructor
    · intro j m lim c hc hq
      refine ⟨0, { lim with nested := true }, if_pos (.inr hc), hq⟩
    · intro j m lim c n limits hc hq hcheck
      obtain ⟨lim', hcheck', hle, hwork, -⟩ := hpass n m lim c (by omega)
      have he : lim' = limits := by
        have heq := hcheck'.symm.trans hcheck
        exact Sum.inl.inj (Option.some.inj heq)
      subst he
      omega
  have hb : Bound m (internReader call m).machine (.start m.numTrievars) id := hok.bound.trail []
  have hpushed : List.Forall₂ (Pushed m (internReader call m).machine) [call.term] [call.term] :=
    .cons (.inl rfl) .nil
  have hq : (internReader call m).limits.depthCtr + (compounds τ.tokens + 0) <
      (internReader call m).limits.working := by
    show 0 + (compounds τ.tokens + 0) < min call.cyclicCheckSize call.maxTableAnswerMetric
    omega
  have hpeel : (internWalker env call).Peels m (fun j lim => lim.depthCtr + j < lim.working)
      (.start m.numTrievars) τ.tokens (internReader call m) ([call.term] ++ []) [] 0 :=
    Walker.peel hk rfl hτ hb rfl hpushed hq
  rcases hpeel with ⟨s', φ, hr, -⟩ | ⟨l, s', c, tail, hr, hblocked⟩
  · obtain ⟨n, hn⟩ := hr.done (internWalker env call).lawful
    have hscan : internScan env call n m = _ := hn n le_rfl
    refine ⟨n, ?_⟩
    rw [trieInternChkIns_eq, hscan]
    exact ⟨_, _, _, _, rfl⟩
  · obtain ⟨j, hj⟩ := hblocked.budget
    obtain ⟨n, c', -, -, hno⟩ := hblocked.cell
    obtain ⟨lim', hcheck, -⟩ := hpass 0 s'.machine s'.limits c' (by omega)
    exact absurd hcheck (hno 0 lim')

/-- The elements of a list: 513 variables, and the first one again. -/
def wideVar (i : Nat) : Addr := if i = 513 then ⟨.heap, 0⟩ else ⟨.heap, 2 * i⟩

/-- The last `j` elements of that list. -/
def wideTuple : Nat → Nat → Tuple Symbol Addr
  | _, 0 => .app (encodeTrieConstant .string 0) .nil .nil
  | i, j + 1 => .app encodeTrieList (.var (wideVar i) (wideTuple (i + 1) j)) .nil

/-- That list on the heap. -/
def wideMachine : Machine :=
  { freeMachine with
    mem := fun a =>
      if a.area ≠ .heap then .ref a
      else if a.pos = 1026 then .ref ⟨.heap, 0⟩
      else if a.pos = 1027 then .const .string 0
      else if a.pos % 2 = 1 then .list ⟨.heap, a.pos + 1⟩
      else .ref a
    hreg := 1028 }

/-- The call for it. -/
def wideCall : InternCall := ⟨.list ⟨.heap, 0⟩, false, true, [], 1000, 1000000⟩

theorem wideMachine_ok : wideMachine.OK := by
  refine ⟨Nat.succ_pos _, le_rfl, fun i _ => ?_⟩
  rfl

theorem wideTuple_denotes (i j : Nat) (h : i + j = 513) :
    Denotes defaultEnv.arity wideMachine.mem wideMachine.User [.list ⟨.heap, 2 * i⟩]
      (wideTuple i (j + 1)) := by
  have huser : ∀ n < 1028, wideMachine.User ⟨.heap, n⟩ := fun n hn => hn
  have hvar : ∀ i < 514, Deref wideMachine.mem wideMachine.User (wideMachine.mem ⟨.heap, 2 * i⟩)
      (.ref (wideVar i)) := by
    intro i hi
    by_cases hlast : i = 513
    · subst hlast
      exact .var (huser 0 (Nat.succ_pos _)) rfl
    · have hmem : wideMachine.mem ⟨.heap, 2 * i⟩ = .ref ⟨.heap, 2 * i⟩ := by
        have h1 : 2 * i ≠ 1026 := by omega
        have h2 : 2 * i ≠ 1027 := by omega
        have h3 : 2 * i % 2 ≠ 1 := by omega
        simp only [wideMachine, ne_eq, not_true_eq_false, if_false, h1, h2, h3]
      rw [hmem, wideVar, if_neg hlast]
      exact .var (huser _ (by omega)) hmem
  induction j generalizing i with
  | zero =>
    obtain rfl : i = 513 := h
    refine .list (.list _) (huser 1026 (by omega)) (huser 1027 (by omega)) ?_ .nil
    exact .var (hvar 513 (by omega)) (.const (.const .string 0) .nil)
  | succ j ih =>
    have htail : wideMachine.mem ⟨.heap, 2 * i + 1⟩ = .list ⟨.heap, 2 * (i + 1)⟩ := by
      have h1 : 2 * i + 1 ≠ 1026 := by omega
      have h2 : 2 * i + 1 ≠ 1027 := by omega
      have h3 : (2 * i + 1) % 2 = 1 := by omega
      simp only [wideMachine, ne_eq, not_true_eq_false, if_false, h1, h2, h3, if_true]
      rfl
    refine .list (.list _) (huser _ (by omega)) (huser (2 * i + 1) (by omega)) ?_ .nil
    refine .var (hvar i (by omega)) ?_
    show Denotes _ _ _ [wideMachine.mem ⟨.heap, 2 * i + 1⟩] _
    rw [htail]
    exact ih (i + 1) (by omega)

theorem wideTuple_tokens (i j : Nat) : (wideTuple i j).tokens =
    (List.range' i j).flatMap (fun k => [.inl encodeTrieList, .inr (wideVar k)]) ++
      [.inl (encodeTrieConstant .string 0)] := by
  induction j generalizing i with
  | zero => rfl
  | succ j ih =>
    show .inl encodeTrieList :: (.inr (wideVar i) :: (wideTuple (i + 1) j).tokens ++ []) = _
    rw [append_nil, ih, List.range'_succ, flatMap_cons]
    rfl

theorem wideVar_not_mem {n : Nat} (hn : n ≤ 512) (e : Nat) :
    (wideVar n, e) ∉ (List.range' 0 n).map fun k => (wideVar k, 0) := by
  intro hk
  obtain ⟨k, hk, he⟩ := mem_map.mp hk
  have hlt : k < 0 + 1 * n := (mem_range'.mp hk).elim fun i hi => by omega
  have h1 : k ≠ 513 := by omega
  have h2 : n ≠ 513 := by omega
  rw [wideVar, wideVar, if_neg h1, if_neg h2] at he
  have hpos : 2 * k = 2 * n := congrArg (fun p => p.1.pos) he
  omega

/-- The first variables get their numbers in an array that is large enough. -/
theorem wide_after {n size : Nat} (hn : n ≤ 512) (hsize : n ≤ size) :
    (Numbering.start size : Numbering Addr).after
      ((List.range' 0 n).flatMap fun k => [.inl encodeTrieList, .inr (wideVar k)]) =
      ⟨size, (List.range' 0 n).map fun k => (wideVar k, 0), 0⟩ := by
  induction n with
  | zero => rfl
  | succ n ih =>
    have hfits : ((List.range' 0 n).map fun k => (wideVar k, 0)).length < size := by
      rw [length_map, length_range']
      omega
    have hnew : ¬Numbering.Known ⟨size, (List.range' 0 n).map fun k => (wideVar k, 0), 0⟩
        (wideVar n) := wideVar_not_mem (by omega) 0
    rw [List.range'_1_concat, flatMap_append, Numbering.after_append,
      ih (by omega) (by omega)]
    show Numbering.next _ (wideVar (0 + n)) = _
    rw [Nat.zero_add, Numbering.next_of_fits hnew hfits, map_append]
    rfl

/-- After one more variable the array has grown. -/
theorem wide_grows {n : Nat} (hn : n ≤ 512) : (Numbering.start n : Numbering Addr).after
    ((List.range' 0 (n + 1)).flatMap fun k => [.inl encodeTrieList, .inr (wideVar k)]) =
    ⟨2 * n, (List.range' 0 n).map (fun k => (wideVar k, 0)) ++ [(wideVar n, 1)], 1⟩ := by
  have hfull : ¬((List.range' 0 n).map fun k => (wideVar k, 0)).length < n := by
    rw [length_map, length_range']
    omega
  have hnew : ¬Numbering.Known ⟨n, (List.range' 0 n).map fun k => (wideVar k, 0), 0⟩
      (wideVar n) := wideVar_not_mem hn 0
  rw [List.range'_1_concat, flatMap_append, Numbering.after_append, wide_after hn le_rfl]
  show Numbering.next _ (wideVar (0 + n)) = _
  rw [Nat.zero_add, Numbering.next_of_full hnew hfull]

/-- The first variable is met again when the array has grown. -/
theorem wide_not_resolves {n : Nat} (hn : n = 512) :
    ¬(Numbering.start n : Numbering Addr).Resolves (wideTuple 0 (n + 1 + 1)).tokens := by
  rw [wideTuple_tokens, List.range'_1_concat, flatMap_append, append_assoc]
  intro h
  have hagain := h.append
  rw [wide_grows hn.le] at hagain
  have hlast : wideVar (0 + (n + 1)) = ⟨.heap, 0⟩ := if_pos (by omega)
  have hfirst : (wideVar (0 + (n + 1)), 0) ∈
      (List.range' 0 n).map fun k => (wideVar k, 0) := by
    rw [hlast]
    exact mem_map.mpr ⟨0, mem_range'.mpr ⟨0, by omega, rfl⟩, rfl⟩
  have hcond := hagain.1
  split at hcond
  next hk =>
    rcases mem_append.mp hk with hk | hk
    · obtain ⟨k, -, he⟩ := mem_map.mp hk
      exact absurd (congrArg Prod.snd he) Nat.zero_ne_one
    · have he := congrArg (fun p => p.1.pos) (mem_singleton.mp hk)
      have hne : n ≠ 513 := by omega
      simp only [hlast] at he
      rw [wideVar, if_neg hne] at he
      have hzero : 0 = 2 * n := he
      omega
  next => exact hcond 0 (mem_append_left _ hfirst)

end XSBEngine.Tries
