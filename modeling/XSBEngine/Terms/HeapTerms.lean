import XSBEngine.Terms.Decoding

/-!
# Terms made from the symbols of a path

`macro_make_heap_term` and `rec_macro_make_heap_term`, `XSB/emu/tries.c:692–824`: the symbols of
a path are popped from the term stack, and each one fills the cell whose address is popped from
the address stack.
-/

namespace XSBEngine.Terms

open Function List Option PrefixTerms XSBEngine.Tries

/-! ### The macros -/

/-- The heap, `BINDING_ARRAY` and `Addr_Stack`. -/
structure BottomUp where
  mem : Memory
  hreg : Nat
  bindingArray : Nat → Option Cell
  addrStack : List Addr

namespace BottomUp

/-- `safe_assign`. -/
def assign (s : BottomUp) (index : Nat) (c : Cell) : BottomUp :=
  { s with bindingArray := update s.bindingArray index (some c) }

/-- The cell at the top of the heap. -/
def top (s : BottomUp) : Addr := ⟨.heap, s.hreg⟩

/-- Overwrite a cell. -/
def write (s : BottomUp) (a : Addr) (c : Cell) : BottomUp :=
  { s with mem := update s.mem a c }

end BottomUp

/-- The switch over a symbol, for the cell at `macroAddr`. The flag of an entry of the term stack
tells an interned structure. -/
def makeHeapCell (arity : Nat → Nat) (s : BottomUp) (macroAddr : Addr) :
    Symbol × Bool → Cell × BottomUp
  | (f, mod) =>
    match f.tag with
    | .trieVar =>
      let index := decodeTrieVar f
      if isNewTrieVar f then (.ref macroAddr, s.assign index (.ref macroAddr))
      else if isNewTrieAttv f then
        (.attv s.top,
          { s.assign index (.attv s.top) with
            mem := update s.mem s.top (.ref s.top)
            hreg := s.hreg + 2
            addrStack := s.top.plus 1 :: s.addrStack })
      else
        match s.bindingArray index with
        | none => (.ref macroAddr, s.assign index (.ref macroAddr))
        | some c => (c, s)
    | .string => (.const .string f.val, s)
    | .int => (.const .int f.val, s)
    | .float => (.const .float f.val, s)
    | .list =>
      if f ≠ encodeTrieList then (.list ⟨.tableSpace, f.val⟩, s)
      else
        (.list s.top, { s with
          hreg := s.hreg + 2
          addrStack := s.top :: s.top.plus 1 :: s.addrStack })
    | .struct =>
      if mod then (.struct ⟨.tableSpace, f.val⟩, s)
      else
        (.struct s.top, { s with
          mem := update s.mem s.top (.functor f.val)
          hreg := s.hreg + arity f.val + 1
          addrStack := strArgs s.top (arity f.val) ++ s.addrStack })

/-- `rec_macro_make_heap_term`. -/
def recMacroMakeHeapTerm (arity : Nat → Nat) : List (Symbol × Bool) → BottomUp → Option BottomUp
  | [], s => if s.addrStack = [] then some s else none
  | entry :: termStack, s =>
    match s.addrStack with
    | [] => some s
    | macroAddr :: addrStack =>
      let (c, s) := makeHeapCell arity { s with addrStack := addrStack } macroAddr entry
      recMacroMakeHeapTerm arity termStack (s.write macroAddr c)

/-- `macro_make_heap_term`, with `ret_val`. -/
def macroMakeHeapTerm (arity : Nat → Nat) (ataddr : Addr) :
    List (Symbol × Bool) → BottomUp → Option (Cell × BottomUp)
  | [], _ => none
  | entry :: termStack, s =>
    let (c, s) := makeHeapCell arity s ataddr entry
    (recMacroMakeHeapTerm arity termStack s).map fun s =>
      (if entry.1.tag = .trieVar then (s.bindingArray (decodeTrieVar entry.1)).getD c else c, s)

/-! ### Filling cells -/

namespace BottomUp

/-- A cell of the heap above a position. -/
def New (base : Nat) (s : BottomUp) (a : Addr) : Prop :=
  a.area = .heap ∧ base ≤ a.pos ∧ a.pos < s.hreg

/-- A new cell that is not to be filled any more. -/
def Filled (base : Nat) (s : BottomUp) (a : Addr) : Prop := s.New base a ∧ a ∉ s.addrStack

/-- The cells to be filled are new and different. -/
structure Holes (base : Nat) (s : BottomUp) : Prop where
  le : base ≤ s.hreg
  nodup : s.addrStack.Nodup
  new : ∀ a ∈ s.addrStack, s.New base a

/-- Cells that are filled stay as they are, and so do those that are not new. -/
structure Grows (base : Nat) (s s' : BottomUp) : Prop where
  hreg : s.hreg ≤ s'.hreg
  filled : ∀ a, s.Filled base a → s'.Filled base a ∧ s'.mem a = s.mem a
  old : ∀ a, ¬(a.area = .heap ∧ base ≤ a.pos) → s'.mem a = s.mem a

end BottomUp

open BottomUp

variable {arity : Nat → Nat} {base n : Nat} {s s' s₁ : BottomUp} {a addr : Addr} {c : Cell}
  {addrs rest holes : List Addr} {f : Symbol} {l : List Symbol} {entry : Symbol × Bool}
  {termStack tail : List (Symbol × Bool)} {mem mem' : Memory} {user user' : Addr → Prop}

theorem BottomUp.Grows.refl (base : Nat) (s : BottomUp) : Grows base s s :=
  ⟨le_rfl, fun _ h => ⟨h, rfl⟩, fun _ _ => rfl⟩

theorem BottomUp.Grows.trans (h : Grows base s s₁) (h' : Grows base s₁ s') : Grows base s s' where
  hreg := h.hreg.trans h'.hreg
  filled a ha := by
    obtain ⟨h1, hm1⟩ := h.filled a ha
    obtain ⟨h2, hm2⟩ := h'.filled a h1
    exact ⟨h2, hm2.trans hm1⟩
  old a ha := (h'.old a ha).trans (h.old a ha)

/-- What the switch does to the state: it takes new cells from the heap and pushes some. -/
structure Pushes (s s₁ : BottomUp) (holes : List Addr) : Prop where
  stack : s₁.addrStack = holes ++ s.addrStack
  nodup : holes.Nodup
  hreg : s.hreg ≤ s₁.hreg
  new : ∀ a ∈ holes, a.area = .heap ∧ s.hreg ≤ a.pos ∧ a.pos < s₁.hreg
  mem : ∀ a, ¬(a.area = .heap ∧ s.hreg ≤ a.pos) → s₁.mem a = s.mem a

theorem Pushes.none (h : s₁.addrStack = s.addrStack) (hh : s₁.hreg = s.hreg)
    (hm : s₁.mem = s.mem) : Pushes s s₁ [] where
  stack := h
  nodup := nodup_nil
  hreg := hh.ge
  new _ ha := absurd ha not_mem_nil
  mem _ _ := by rw [hm]

theorem update_top (ha : ¬(a.area = .heap ∧ s.hreg ≤ a.pos)) :
    update s.mem s.top c a = s.mem a := by
  apply update_of_ne
  rintro rfl
  exact ha ⟨rfl, le_rfl⟩

theorem strArgs_nodup (a : Addr) (n : Nat) : (strArgs a n).Nodup := by
  apply List.Nodup.map_on _ nodup_range
  intro i _ j _ h
  have hpos : a.pos + (i + 1) = a.pos + (j + 1) := congrArg Addr.pos h
  omega

theorem pushes_list (s : BottomUp) :
    Pushes s { s with hreg := s.hreg + 2, addrStack := s.top :: s.top.plus 1 :: s.addrStack }
      [s.top, s.top.plus 1] := by
  refine ⟨rfl, ?_, Nat.le_add_right _ _, ?_, fun _ _ => rfl⟩
  · simp [Addr.plus, BottomUp.top]
  · simp only [forall_mem_cons, BottomUp.top, Addr.plus]
    exact ⟨⟨trivial, le_rfl, by omega⟩, ⟨trivial, by omega, by omega⟩,
      fun _ h => absurd h not_mem_nil⟩

theorem pushes_struct (s : BottomUp) (psc n : Nat) :
    Pushes s
      { s with
        mem := update s.mem s.top (.functor psc)
        hreg := s.hreg + n + 1
        addrStack := strArgs s.top n ++ s.addrStack } (strArgs s.top n) := by
  refine ⟨rfl, strArgs_nodup _ _, by simp only; omega, ?_, fun a ha => update_top ha⟩
  intro a ha
  obtain ⟨j, hj, rfl⟩ := mem_map.mp ha
  have hlt := mem_range.mp hj
  simp only [BottomUp.top, Addr.plus]
  exact ⟨trivial, by omega, by omega⟩

theorem makeHeapCell_pushes (arity : Nat → Nat) (s : BottomUp) (addr : Addr)
    (entry : Symbol × Bool) : ∃ holes, Pushes s (makeHeapCell arity s addr entry).2 holes := by
  obtain ⟨⟨tag, val⟩, mod⟩ := entry
  cases tag with
  | trieVar =>
    simp only [makeHeapCell]
    split
    · exact ⟨[], .none rfl rfl rfl⟩
    · split
      · refine ⟨[s.top.plus 1], rfl, nodup_singleton _, Nat.le_add_right _ _, ?_,
          fun a ha => update_top ha⟩
        intro a ha
        rw [mem_singleton.mp ha]
        exact ⟨rfl, Nat.le_succ _, Nat.lt_succ_self _⟩
      · split
        · exact ⟨[], .none rfl rfl rfl⟩
        · exact ⟨[], .none rfl rfl rfl⟩
  | string | int | float => exact ⟨[], .none rfl rfl rfl⟩
  | list =>
    simp only [makeHeapCell]
    split
    · exact ⟨[], .none rfl rfl rfl⟩
    · exact ⟨_, pushes_list s⟩
  | struct =>
    simp only [makeHeapCell]
    split
    · exact ⟨[], .none rfl rfl rfl⟩
    · exact ⟨_, pushes_struct s val (arity val)⟩

/-- One cell is filled. -/
theorem Pushes.fill (h : Pushes { s with addrStack := rest } s₁ holes) (hs : Holes base s)
    (hstack : s.addrStack = addr :: rest) :
    Holes base (s₁.write addr c) ∧ Grows base s (s₁.write addr c) ∧
      (s₁.write addr c).Filled base addr ∧ (s₁.write addr c).mem addr = c ∧
      (s₁.write addr c).addrStack = holes ++ rest := by
  have hnew := hs.new
  have hnodup := hs.nodup
  rw [hstack] at hnew hnodup
  obtain ⟨hnotin, hnodup'⟩ := nodup_cons.mp hnodup
  have haddr := hnew addr mem_cons_self
  have hfresh : ∀ a ∈ holes, s.hreg ≤ a.pos := fun a ha => (h.new a ha).2.1
  have hold : ∀ a ∈ addr :: rest, a ∉ holes := by
    intro a ha hah
    have hlt := (hnew a ha).2.2
    have hle := hfresh a hah
    omega
  have hgrow : ∀ a, s.New base a → s₁.New base a :=
    fun a ha => ⟨ha.1, ha.2.1, ha.2.2.trans_le h.hreg⟩
  have hstack' : (s₁.write addr c).addrStack = holes ++ rest := h.stack
  refine ⟨⟨hs.le.trans h.hreg, ?_, ?_⟩, ⟨h.hreg, ?_, ?_⟩, ⟨hgrow _ haddr, ?_⟩,
    update_self .., hstack'⟩
  · rw [hstack', nodup_append]
    refine ⟨h.nodup, hnodup', fun a ha b hb hab => ?_⟩
    exact hold b (mem_cons_of_mem _ hb) (hab ▸ ha)
  · intro a ha
    rw [hstack'] at ha
    rcases mem_append.mp ha with ha | ha
    · obtain ⟨harea, hle, hlt⟩ := h.new a ha
      exact ⟨harea, hs.le.trans hle, hlt⟩
    · exact hgrow a (hnew a (mem_cons_of_mem _ ha))
  · rintro a ⟨ha, hno⟩
    rw [hstack] at hno
    have hne : a ≠ addr := fun he => hno (he ▸ mem_cons_self)
    refine ⟨⟨hgrow a ha, ?_⟩, ?_⟩
    · rw [hstack', mem_append]
      rintro (hm | hm)
      · have hle := hfresh a hm
        have hlt := ha.2.2
        omega
      · exact hno (mem_cons_of_mem _ hm)
    · show update s₁.mem addr c a = _
      rw [update_of_ne hne, h.mem a fun hn => absurd hn.2 (not_le.mpr ha.2.2)]
  · intro a ha
    have hne : a ≠ addr := by
      rintro rfl
      exact ha ⟨haddr.1, haddr.2.1⟩
    show update s₁.mem addr c a = _
    rw [update_of_ne hne, h.mem a fun hn => ha ⟨hn.1, hs.le.trans hn.2⟩]
  · rw [hstack', mem_append]
    rintro (hm | hm)
    · exact hold addr mem_cons_self hm
    · exact hnotin hm

theorem recMacroMakeHeapTerm_cons (hstack : s.addrStack = addr :: rest) :
    recMacroMakeHeapTerm arity (entry :: termStack) s = recMacroMakeHeapTerm arity termStack
      ((makeHeapCell arity { s with addrStack := rest } addr entry).2.write addr
        (makeHeapCell arity { s with addrStack := rest } addr entry).1) := by
  rw [recMacroMakeHeapTerm, hstack]

/-- Whatever the symbols are, what is filled stays as it is. -/
theorem recMacroMakeHeapTerm_grows (hs : Holes base s)
    (h : recMacroMakeHeapTerm arity termStack s = some s') : Grows base s s' := by
  induction termStack generalizing s with
  | nil =>
    rw [recMacroMakeHeapTerm] at h
    split at h
    · cases h
      exact .refl base _
    · cases h
  | cons entry termStack ih =>
    cases hstack : s.addrStack with
    | nil =>
      rw [recMacroMakeHeapTerm, hstack] at h
      cases h
      exact .refl base _
    | cons addr rest =>
      rw [recMacroMakeHeapTerm_cons hstack] at h
      obtain ⟨holes, hpush⟩ := makeHeapCell_pushes arity { s with addrStack := rest } addr entry
      obtain ⟨hs1, hgrows, -⟩ := hpush.fill hs hstack
      exact hgrows.trans (ih hs1 h)

/-! ### Symbols of terms -/

/-- A symbol of a term. -/
def Plain (f : Symbol) : Prop := f.tag ≠ .trieVar ∧ (f.tag = .list → f = encodeTrieList)

/-- Symbols that spell terms. -/
inductive Spells (arity : Nat → Nat) : Nat → List Symbol → Prop where
  | nil : Spells arity 0 []
  | var {n : Nat} {f : Symbol} {l : List Symbol} :
      f.tag = .trieVar → Spells arity n l → Spells arity (n + 1) (f :: l)
  | app {n : Nat} {f : Symbol} {l l' : List Symbol} :
      Plain f → Spells arity (rank arity f) l → Spells arity n l' →
      Spells arity (n + 1) (f :: (l ++ l'))

variable {cs : List Cell} {t : Tuple Symbol Addr}

theorem Denotes.plain (h : Denotes arity mem user cs t) :
    ∀ f, .inl f ∈ t.tokens → Plain f := by
  have hsymbols := h.symbols
  intro f hf
  refine ⟨hsymbols f hf, fun htag => ?_⟩
  clear hsymbols
  induction h with
  | nil => exact absurd hf not_mem_nil
  | var _ _ ih => exact ih ((mem_cons.mp hf).resolve_left Sum.inl_ne_inr)
  | @const c cs tag val rest _ _ ih =>
    rcases mem_cons.mp hf with he | hf
    · cases he
      cases tag <;> cases htag
    · exact ih hf
  | list _ _ _ _ _ ihargs ih =>
    rcases mem_cons.mp hf with he | hf
    · exact Sum.inl.inj he
    · exact (mem_append.mp hf).elim ihargs ih
  | struct _ _ _ _ _ ihargs ih =>
    rcases mem_cons.mp hf with he | hf
    · cases he
      cases htag
    · exact (mem_append.mp hf).elim ihargs ih

/-- The symbols that the encoder makes of terms. -/
theorem Numbering.symbols_spells (g : Numbering Addr)
    (ht : t.Ranked (rank arity)) (hl : ∀ f, .inl f ∈ t.tokens → Plain f) :
    Spells arity t.length (g.symbols t.tokens) := by
  induction t generalizing g with
  | nil => exact .nil
  | var v rest ih =>
    refine .var (g.symbol_tag v) (ih (g.next v) ht fun f hf => ?_)
    exact hl f (mem_cons_of_mem _ hf)
  | app f args rest ihargs ih =>
    obtain ⟨hlen, hargs, hrest⟩ := ht
    rw [Tuple.tokens, Numbering.symbols, Numbering.symbols_append]
    refine .app (hl f mem_cons_self) ?_ (ih _ hrest fun f' hf => ?_)
    · rw [← hlen]
      exact ihargs g hargs fun f' hf => hl f' (mem_cons_of_mem _ (mem_append_left _ hf))
    · exact hl f' (mem_cons_of_mem _ (mem_append_right _ hf))

/-- A cell for a symbol, with the cells for its arguments. -/
structure Builds (arity : Nat → Nat) (s s₁ : BottomUp) (c : Cell) (f : Symbol)
    (holes : List Addr) : Prop where
  intro : ∀ (mem : Memory) (user : Addr → Prop) (args t : Tuple Symbol Addr) (cs : List Cell),
    (∀ a, a.area = .heap → s.hreg ≤ a.pos → a.pos < s₁.hreg → user a ∧
      (a ∉ holes → mem a = s₁.mem a)) →
    Denotes arity mem user (holes.map mem) args → Denotes arity mem user cs t →
    Denotes arity mem user (c :: cs) (.app f args t)
  elim : ∀ (mem : Memory) (user : Addr → Prop) (t : Tuple Symbol Addr) (cs : List Cell),
    (∀ a, a.area = .heap → s.hreg ≤ a.pos → a.pos < s₁.hreg → a ∉ holes → mem a = s₁.mem a) →
    Denotes arity mem user (c :: cs) t →
    ∃ args t', Denotes arity mem user (holes.map mem) args ∧ Denotes arity mem user cs t'

theorem builds_const (tag : ConstTag) (val : Nat) :
    Builds arity s s (.const tag val) (encodeTrieConstant tag val) [] where
  intro mem user args t cs _ hargs ht := by
    cases hargs
    exact .const (.const tag val) ht
  elim mem user t cs _ h := by
    cases h with
    | var hd _ => cases hd
    | const _ hcs => exact ⟨.nil, _, .nil, hcs⟩
    | list hd _ _ _ _ | struct hd _ _ _ _ => cases hd

/-- What the switch makes of a symbol of a term. -/
theorem makeHeapCell_plain (hf : Plain f) (s : BottomUp) (addr : Addr) :
    ∃ c s₁ holes, makeHeapCell arity s addr (f, false) = (c, s₁) ∧ Pushes s s₁ holes ∧
      s₁.bindingArray = s.bindingArray ∧ holes.length = rank arity f ∧
      Builds arity s s₁ c f holes := by
  obtain ⟨tag, val⟩ := f
  obtain ⟨hvar, hlist⟩ := hf
  cases tag with
  | trieVar => exact absurd rfl hvar
  | string => exact ⟨_, _, [], rfl, .none rfl rfl rfl, rfl, rfl, builds_const .string val⟩
  | int => exact ⟨_, _, [], rfl, .none rfl rfl rfl, rfl, rfl, builds_const .int val⟩
  | float => exact ⟨_, _, [], rfl, .none rfl rfl rfl, rfl, rfl, builds_const .float val⟩
  | list =>
    have hcell : makeHeapCell arity s addr (⟨.list, val⟩, false) = (.list s.top, { s with
        hreg := s.hreg + 2
        addrStack := s.top :: s.top.plus 1 :: s.addrStack }) := by
      simp only [makeHeapCell]
      rw [if_neg (not_not.mpr (hlist rfl))]
    refine ⟨_, _, _, hcell, pushes_list s, rfl, rfl, ?_, ?_⟩
    · intro mem user args t cs hnew hargs ht
      rw [hlist rfl]
      have htop := hnew s.top rfl le_rfl (Nat.lt_add_of_pos_right Nat.two_pos)
      have hnext := hnew (s.top.plus 1) rfl (Nat.le_succ _) (Nat.lt_succ_self _)
      exact .list (.list _) htop.1 hnext.1 hargs ht
    · intro mem user t cs _ h
      cases h with
      | var hd _ | const hd _ => cases hd
      | list hd _ _ hargs hcs =>
        cases hd
        exact ⟨_, _, hargs, hcs⟩
      | struct hd _ _ _ _ => cases hd
  | struct =>
    have hlen : (strArgs s.top (arity val)).length = arity val := by
      rw [strArgs, length_map, length_range]
    have htop : s.top ∉ strArgs s.top (arity val) := by
      intro hm
      obtain ⟨j, -, he⟩ := mem_map.mp hm
      have hpos : s.hreg + (j + 1) = s.hreg := congrArg Addr.pos he
      omega
    have hpsc : update s.mem s.top (.functor val) s.top = .functor val :=
      update_self ..
    refine ⟨_, _, _, rfl, pushes_struct s val (arity val), rfl, hlen, ?_, ?_⟩
    · intro mem user args t cs hnew hargs ht
      have hmem := (hnew s.top rfl le_rfl (by simp only [BottomUp.top]; omega)).2 htop
      refine .struct (.struct _) (fun k hk => ?_) (hmem.trans hpsc) hargs ht
      apply (hnew _ rfl (Nat.le_add_right _ _) _).1
      simp only [BottomUp.top, Addr.plus]
      omega
    · intro mem user t cs hnew h
      have hmem := hnew s.top rfl le_rfl (by simp only [BottomUp.top]; omega) htop
      cases h with
      | var hd _ | const hd _ | list hd _ _ _ _ => cases hd
      | struct hd _ hf hargs hcs =>
        cases hd
        have hval := hf.symm.trans (hmem.trans hpsc)
        cases hval
        exact ⟨_, _, hargs, hcs⟩

/-! ### Terms that are made -/

theorem Deref.mono {r : Cell} (h : Deref mem user c r)
    (hm : ∀ a, user a → user' a ∧ mem' a = mem a) : Deref mem' user' c r := by
  induction h with
  | var hu ha => exact .var (hm _ hu).1 ((hm _ hu).2.trans ha)
  | step hu hne _ ih =>
    have he := (hm _ hu).2
    exact .step (hm _ hu).1 (he ▸ hne) (he ▸ ih)
  | const tag val => exact .const tag val
  | list a => exact .list a
  | struct a => exact .struct a

/-- Cells that are left as they are stand for the same terms. -/
theorem Denotes.mono (h : Denotes arity mem user cs t)
    (hm : ∀ a, user a → user' a ∧ mem' a = mem a) : Denotes arity mem' user' cs t := by
  induction h with
  | nil => exact .nil
  | var hd _ ih => exact .var (hd.mono hm) ih
  | const hd _ ih => exact .const (hd.mono hm) ih
  | @list c cs a args rest hd hu hu' _ _ ihargs ih =>
    refine .list (hd.mono hm) (hm _ hu).1 (hm _ hu').1 ?_ ih
    rw [(hm _ hu).2, (hm _ hu').2]
    exact ihargs
  | @struct c cs a psc args rest hd hu hf _ _ ihargs ih =>
    refine .struct (hd.mono hm) (fun k hk => (hm _ (hu k hk)).1)
      ((hm _ (hu 0 (Nat.zero_le _))).2.trans hf) ?_ ih
    have hargs : (strArgs a (arity psc)).map mem' = (strArgs a (arity psc)).map mem := by
      apply map_congr_left
      intro x hx
      obtain ⟨i, hi, rfl⟩ := mem_map.mp hx
      exact (hm _ (hu (i + 1) (mem_range.mp hi))).2
    rw [hargs]
    exact ihargs

theorem Denotes.append {cs' : List Cell} {t' : Tuple Symbol Addr}
    (h : Denotes arity mem user cs t) (h' : Denotes arity mem user cs' t') :
    Denotes arity mem user (cs ++ cs') (t.append t') := by
  induction h with
  | nil => exact h'
  | var hd _ ih => exact .var hd ih
  | const hd _ ih => exact .const hd ih
  | list hd hu hu' hargs _ _ ih => exact .list hd hu hu' hargs ih
  | struct hd hu hf hargs _ _ ih => exact .struct hd hu hf hargs ih

theorem Denotes.of_append {cs' : List Cell} (h : Denotes arity mem user (cs ++ cs') t) :
    (∃ t, Denotes arity mem user cs t) ∧ ∃ t, Denotes arity mem user cs' t := by
  induction cs generalizing t with
  | nil => exact ⟨⟨_, .nil⟩, t, h⟩
  | cons c cs ih =>
    cases h with
    | var hd hcs =>
      obtain ⟨⟨t, ht⟩, h'⟩ := ih hcs
      exact ⟨⟨_, .var hd ht⟩, h'⟩
    | const hd hcs =>
      obtain ⟨⟨t, ht⟩, h'⟩ := ih hcs
      exact ⟨⟨_, .const hd ht⟩, h'⟩
    | list hd hu hu' hargs hcs =>
      obtain ⟨⟨t, ht⟩, h'⟩ := ih hcs
      exact ⟨⟨_, .list hd hu hu' hargs ht⟩, h'⟩
    | struct hd hu hf hargs hcs =>
      obtain ⟨⟨t, ht⟩, h'⟩ := ih hcs
      exact ⟨⟨_, .struct hd hu hf hargs ht⟩, h'⟩

variable {bind : Nat → Option Nat} {k : Nat} {ρ ρ1 ρ' : Nat → Addr}
  {toks toks' : List (Symbol ⊕ Nat)}
  {addrs' : List Addr} {l' : List Symbol}

/-- The variables that are made are different free cells, and `BINDING_ARRAY` points to them. -/
structure Named (base : Nat) (s : BottomUp) (bind : Nat → Option Nat) (k : Nat)
    (ρ : Nat → Addr) : Prop where
  bound : ∀ i j, bind i = some j → j < k ∧ s.bindingArray i = some (.ref (ρ j))
  free : ∀ j < k, s.Filled base (ρ j) ∧ s.mem (ρ j) = .ref (ρ j)
  inj : ∀ i < k, ∀ j < k, ρ i = ρ j → i = j

theorem Named.grows (h : Named base s bind k ρ) (hg : Grows base s s')
    (hb : s'.bindingArray = s.bindingArray) : Named base s' bind k ρ where
  bound i j hi := hb ▸ h.bound i j hi
  free j hj := by
    obtain ⟨hf, hm⟩ := h.free j hj
    obtain ⟨hf', hm'⟩ := hg.filled _ hf
    exact ⟨hf', hm'.trans hm⟩
  inj := h.inj

/-- A new variable at a cell that is filled with a reference to itself. -/
theorem Named.assign {index : Nat} (h : Named base s bind k ρ) (hg : Grows base s s')
    (hb : s'.bindingArray = (s.assign index (.ref addr)).bindingArray)
    (hnew : ¬s.Filled base addr) (hfilled : s'.Filled base addr) (hmem : s'.mem addr = .ref addr) :
    Named base s' (update bind index (some k)) (k + 1) (update ρ k addr) := by
  have hold : ∀ j < k, update ρ k addr j = ρ j :=
    fun j hj => update_of_ne (Nat.ne_of_lt hj) _ _
  have hne : ∀ j < k, ρ j ≠ addr := fun j hj he => hnew (he ▸ (h.free j hj).1)
  have hcases : ∀ j < k + 1, j < k ∨ j = k := fun j hj => Nat.lt_succ_iff_lt_or_eq.mp hj
  constructor
  · intro i j hi
    rw [hb]
    show _ ∧ update s.bindingArray index _ i = _
    by_cases he : i = index
    · rw [he, update_self, Option.some.injEq] at hi
      rw [he, ← hi, update_self, update_self]
      exact ⟨Nat.lt_succ_self k, rfl⟩
    · rw [update_of_ne he] at hi ⊢
      obtain ⟨hj, harr⟩ := h.bound i j hi
      rw [hold j hj]
      exact ⟨Nat.lt_succ_of_lt hj, harr⟩
  · intro j hj
    rcases hcases j hj with hj | rfl
    · rw [hold j hj]
      obtain ⟨hf, hm⟩ := h.free j hj
      obtain ⟨hf', hm'⟩ := hg.filled _ hf
      exact ⟨hf', hm'.trans hm⟩
    · rw [update_self]
      exact ⟨hfilled, hmem⟩
  · intro i hi j hj he
    rcases hcases i hi with hi | rfl <;> rcases hcases j hj with hj | rfl
    · rw [hold i hi, hold j hj] at he
      exact h.inj i hi j hj he
    · rw [hold i hi, update_self] at he
      exact absurd he (hne i hi)
    · rw [hold j hj, update_self] at he
      exact absurd he.symm (hne j hj)
    · rfl

/-- The symbols fill the cells with the terms that `decode` tells. -/
structure Makes (arity : Nat → Nat) (base : Nat) (s : BottomUp) (bind : Nat → Option Nat) (k : Nat)
    (ρ : Nat → Addr) (l : List Symbol) (addrs rest : List Addr) (toks : List (Symbol ⊕ Nat))
    (s' : BottomUp) (ρ' : Nat → Addr) : Prop where
  run : ∀ tail, recMacroMakeHeapTerm arity (l.map (·, false) ++ tail) s =
    recMacroMakeHeapTerm arity tail s'
  stack : s'.addrStack = rest
  holes : Holes base s'
  grows : Grows base s s'
  filled : ∀ a ∈ addrs, s'.Filled base a
  named : Named base s' (decodeState bind k l).1 (decodeState bind k l).2 ρ'
  le : k ≤ (decodeState bind k l).2
  keeps : ∀ j < k, ρ' j = ρ j
  bound : ∀ j, .inr j ∈ toks → j < (decodeState bind k l).2
  term : ∃ t, Denotes arity s'.mem (s'.Filled base) (addrs.map s'.mem) t ∧
    t.tokens = toks.map (Sum.map id ρ')

theorem Makes.nil (hs : Holes base s) (hstack : s.addrStack = rest) (hn : Named base s bind k ρ) :
    Makes arity base s bind k ρ [] [] rest [] s ρ where
  run _ := rfl
  stack := hstack
  holes := hs
  grows := .refl base s
  filled _ h := absurd h not_mem_nil
  named := hn
  le := le_rfl
  keeps _ _ := rfl
  bound _ h := absurd h not_mem_nil
  term := ⟨.nil, .nil, rfl⟩

theorem Makes.append (h : Makes arity base s bind k ρ l addrs (addrs' ++ rest) toks s₁ ρ1)
    (h' : Makes arity base s₁ (decodeState bind k l).1 (decodeState bind k l).2 ρ1 l' addrs' rest
      toks' s' ρ') :
    Makes arity base s bind k ρ (l ++ l') (addrs ++ addrs') rest (toks ++ toks') s' ρ' := by
  have hle := h.le.trans h'.le
  constructor
  case run =>
    intro tail
    rw [map_append, append_assoc, h.run, h'.run]
  case stack => exact h'.stack
  case holes => exact h'.holes
  case grows => exact h.grows.trans h'.grows
  case filled =>
    intro a ha
    rcases mem_append.mp ha with ha | ha
    · exact (h'.grows.filled a (h.filled a ha)).1
    · exact h'.filled a ha
  case named => exact decodeState_append l l' ▸ h'.named
  case le => exact decodeState_append l l' ▸ hle
  case keeps => exact fun j hj => (h'.keeps j (hj.trans_le h.le)).trans (h.keeps j hj)
  case bound =>
    intro j hj
    rw [decodeState_append]
    rcases mem_append.mp hj with hj | hj
    · exact (h.bound j hj).trans_le h'.le
    · exact h'.bound j hj
  case term =>
    obtain ⟨t, ht, htoks⟩ := h.term
    obtain ⟨t', ht', htoks'⟩ := h'.term
    have hsame : addrs.map s'.mem = addrs.map s₁.mem :=
      map_congr_left fun a ha => (h'.grows.filled a (h.filled a ha)).2
    have hrename : toks.map (Sum.map id ρ') = toks.map (Sum.map id ρ1) := by
      apply map_congr_left
      intro x hx
      cases x with
      | inl f => rfl
      | inr j => exact congrArg Sum.inr (h'.keeps j (h.bound j hx))
    refine ⟨t.append t', ?_, ?_⟩
    · rw [map_append, hsame]
      exact (ht.mono h'.grows.filled).append ht'
    · rw [Tuple.tokens_append, htoks, htoks', map_append, hrename]

/-- One variable. -/
theorem makes_var (hs : Holes base s) (hstack : s.addrStack = addr :: rest)
    (hn : Named base s bind k ρ) (hf : f.tag = .trieVar) (hd : decode bind k [f] = some toks) :
    ∃ s' ρ', Makes arity base s bind k ρ [f] [addr] rest toks s' ρ' := by
  have hfresh : ¬s.Filled base addr := fun h => h.2 (hstack ▸ mem_cons_self)
  have hrun : ∀ c s₁, makeHeapCell arity { s with addrStack := rest } addr (f, false) = (c, s₁) →
      ∀ tail, recMacroMakeHeapTerm arity ([f].map (·, false) ++ tail) s =
        recMacroMakeHeapTerm arity tail (s₁.write addr c) := by
    intro c s₁ hcell tail
    rw [map_singleton, singleton_append, recMacroMakeHeapTerm_cons hstack, hcell]
  rw [decode, if_pos hf] at hd
  by_cases hnew : isNewTrieVar f = true
  · rw [if_pos hnew, decode, map_some, Option.some.injEq] at hd
    have hcell : makeHeapCell arity { s with addrStack := rest } addr (f, false) =
        (.ref addr, ({ s with addrStack := rest } : BottomUp).assign (decodeTrieVar f)
          (.ref addr)) := by
      rw [makeHeapCell, hf]
      exact if_pos hnew
    have hpush : Pushes { s with addrStack := rest }
        (({ s with addrStack := rest } : BottomUp).assign (decodeTrieVar f) (.ref addr)) [] :=
      .none rfl rfl rfl
    obtain ⟨hs', hgrows, hfilled, hmem, hstack'⟩ := hpush.fill (c := .ref addr) hs hstack
    have hstate : decodeState bind k [f] =
        (update bind (decodeTrieVar f) (some k), k + 1) := if_pos ⟨hf, hnew⟩
    refine ⟨_, update ρ k addr, hrun _ _ hcell, hstack', hs', hgrows, ?_, ?_, ?_, ?_, ?_,
      .var addr .nil, ?_, ?_⟩
    · exact fun a ha => mem_singleton.mp ha ▸ hfilled
    · rw [hstate]
      exact hn.assign hgrows rfl hfresh hfilled hmem
    · rw [hstate]
      exact Nat.le_succ k
    · exact fun j hj => update_of_ne (Nat.ne_of_lt hj) _ _
    · intro j hj
      rw [← hd, mem_singleton, Sum.inr.injEq] at hj
      rw [hstate, hj]
      exact Nat.lt_succ_self k
    · rw [map_singleton, hmem]
      exact .var (.var hfilled hmem) .nil
    · rw [← hd, map_singleton, Sum.map_inr, update_self]
      rfl
  · rw [if_neg hnew] at hd
    split at hd
    next => cases hd
    next hattv =>
      cases hbind : bind (decodeTrieVar f) with
      | none => rw [hbind] at hd; cases hd
      | some j =>
        rw [hbind, decode] at hd
        have htoks : [.inr j] = toks := some.inj hd
        obtain ⟨hj, harr⟩ := hn.bound _ _ hbind
        obtain ⟨hjfilled, hjmem⟩ := hn.free j hj
        have hcell : makeHeapCell arity { s with addrStack := rest } addr (f, false) =
            (.ref (ρ j), { s with addrStack := rest }) := by
          rw [makeHeapCell, hf]
          simp only
          rw [if_neg hnew, if_neg hattv, harr]
        have hpush : Pushes { s with addrStack := rest } { s with addrStack := rest } [] :=
          .none rfl rfl rfl
        obtain ⟨hs', hgrows, hfilled, hmem, hstack'⟩ := hpush.fill (c := .ref (ρ j)) hs hstack
        obtain ⟨hjfilled', hjmem'⟩ := hgrows.filled _ hjfilled
        have hstate : decodeState bind k [f] = (bind, k) := if_neg fun h => hnew h.2
        refine ⟨_, ρ, hrun _ _ hcell, hstack', hs', hgrows, ?_, ?_, ?_, fun _ _ => rfl, ?_,
          .var (ρ j) .nil, ?_, ?_⟩
        · exact fun a ha => mem_singleton.mp ha ▸ hfilled
        · rw [hstate]
          exact hn.grows hgrows rfl
        · rw [hstate]
        · intro i hi
          rw [← htoks, mem_singleton, Sum.inr.injEq] at hi
          rw [hstate, hi]
          exact hj
        · rw [map_singleton, hmem]
          exact .var (.var hjfilled' (hjmem'.trans hjmem)) .nil
        · rw [← htoks]
          rfl

theorem decodeState_symbol (hf : f.tag ≠ .trieVar) (bind : Nat → Option Nat) (k : Nat)
    (l : List Symbol) : decodeState bind k (f :: l) = decodeState bind k l :=
  if_neg fun h => hf h.1

/-- The cells that are taken for a symbol, but for those to be filled, are filled. -/
theorem Pushes.taken {args : List Addr} (h : Pushes { s with addrStack := rest } s₁ args)
    (hs : Holes base s) (hstack : s.addrStack = addr :: rest) (harea : a.area = .heap)
    (hle : s.hreg ≤ a.pos) (hlt : a.pos < s₁.hreg) (ha : a ∉ args) :
    (s₁.write addr c).Filled base a ∧ (s₁.write addr c).mem a = s₁.mem a := by
  have hold : ∀ b ∈ s.addrStack, b ≠ a := by
    rintro b hb rfl
    have hlt := (hs.new b hb).2.2
    omega
  rw [hstack] at hold
  refine ⟨⟨⟨harea, hs.le.trans hle, hlt⟩, ?_⟩, ?_⟩
  · show a ∉ s₁.addrStack
    rw [h.stack, mem_append]
    rintro (hm | hm)
    · exact ha hm
    · exact hold a (mem_cons_of_mem _ hm) rfl
  · exact update_of_ne (hold addr mem_cons_self).symm _ _

/-- One symbol of a term, with its arguments. -/
theorem Makes.app {args : List Addr} (hf : f.tag ≠ .trieVar)
    (hcell : makeHeapCell arity { s with addrStack := rest } addr (f, false) = (c, s₁))
    (hpush : Pushes { s with addrStack := rest } s₁ args) (hs : Holes base s)
    (hstack : s.addrStack = addr :: rest)
    (hbuild : Builds arity { s with addrStack := rest } s₁ c f args)
    (h : Makes arity base (s₁.write addr c) bind k ρ l args rest toks s' ρ') :
    Makes arity base s bind k ρ (f :: l) [addr] rest (.inl f :: toks) s' ρ' := by
  have hstate := decodeState_symbol hf bind k l
  obtain ⟨-, hgrows, hfilled, hmem, -⟩ := hpush.fill (c := c) hs hstack
  obtain ⟨hfilled', hmem'⟩ := h.grows.filled _ hfilled
  constructor
  case run =>
    intro tail
    rw [map_cons, cons_append, recMacroMakeHeapTerm_cons hstack, hcell, ← h.run]
  case stack => exact h.stack
  case holes => exact h.holes
  case grows => exact hgrows.trans h.grows
  case filled => exact fun a ha => mem_singleton.mp ha ▸ hfilled'
  case named => exact hstate ▸ h.named
  case le => exact hstate ▸ h.le
  case keeps => exact h.keeps
  case bound =>
    intro j hj
    rw [hstate]
    exact h.bound j ((mem_cons.mp hj).resolve_left Sum.inr_ne_inl)
  case term =>
    obtain ⟨t, ht, htoks⟩ := h.term
    refine ⟨.app f t .nil, ?_, ?_⟩
    · rw [map_singleton, hmem', hmem]
      apply hbuild.intro s'.mem (s'.Filled base) t .nil [] _ ht .nil
      intro a harea hle hlt
      by_cases ha : a ∈ args
      · exact ⟨h.filled a ha, fun hn => absurd ha hn⟩
      · obtain ⟨htaken, hsame⟩ := hpush.taken (c := c) hs hstack harea hle hlt ha
        obtain ⟨htaken', hsame'⟩ := h.grows.filled a htaken
        exact ⟨htaken', fun _ => hsame'.trans hsame⟩
    · rw [Tuple.tokens, Tuple.tokens, append_nil, htoks]
      rfl

/-- Symbols that are decoded fill the cells with terms. -/
theorem Spells.makes (h : Spells arity n l) (hs : Holes base s)
    (hstack : s.addrStack = addrs ++ rest) (hlen : addrs.length = n) (hn : Named base s bind k ρ)
    (hd : decode bind k l = some toks) :
    ∃ s' ρ', Makes arity base s bind k ρ l addrs rest toks s' ρ' := by
  induction h generalizing s addrs rest bind k ρ toks with
  | nil =>
    cases length_eq_zero_iff.mp hlen
    cases hd
    exact ⟨s, ρ, .nil hs hstack hn⟩
  | @var n f l hf _ ih =>
    obtain ⟨addr, addrs, rfl⟩ := exists_cons_of_length_eq_add_one hlen
    have hstack : s.addrStack = addr :: (addrs ++ rest) := hstack
    rw [show f :: l = [f] ++ l from rfl, decode_append] at hd
    obtain ⟨toks1, hd1, hrest⟩ := bind_eq_some_iff.mp hd
    obtain ⟨toks', hd', rfl⟩ := map_eq_some_iff.mp hrest
    obtain ⟨s₁, ρ1, h1⟩ := makes_var hs hstack hn hf hd1
    obtain ⟨s', ρ', h'⟩ := ih h1.holes h1.stack (Nat.succ.inj hlen) h1.named hd'
    exact ⟨s', ρ', h1.append h'⟩
  | @app n f l l' hf _ _ ihargs ih =>
    obtain ⟨addr, addrs, rfl⟩ := exists_cons_of_length_eq_add_one hlen
    have hstack : s.addrStack = addr :: (addrs ++ rest) := hstack
    rw [show f :: (l ++ l') = (f :: l) ++ l' from rfl, decode_append, decode_symbol hf.1] at hd
    obtain ⟨toks1, hd1, hrest⟩ := bind_eq_some_iff.mp hd
    obtain ⟨toks', hd', rfl⟩ := map_eq_some_iff.mp hrest
    obtain ⟨toks2, hd2, rfl⟩ := map_eq_some_iff.mp hd1
    obtain ⟨c, s₁, args, hcell, hpush, hbind, hargs, hbuild⟩ :=
      makeHeapCell_plain hf { s with addrStack := addrs ++ rest } addr
    obtain ⟨hs1, hgrows, -, -, hstack1⟩ := hpush.fill (c := c) hs hstack
    obtain ⟨s2, ρ2, h2⟩ := ihargs hs1 hstack1 hargs (hn.grows hgrows hbind) hd2
    have h1 := Makes.app hf.1 hcell hpush hs hstack hbuild h2
    obtain ⟨s', ρ', h'⟩ := ih h1.holes h1.stack (Nat.succ.inj hlen) h1.named hd'
    exact ⟨s', ρ', h1.append h'⟩

/-! ### An attributed variable where there was none -/

/-- Where an attributed variable is read, the cells that are filled stand for no term. -/
theorem Spells.no_term (h : Spells arity n l) (hs : Holes base s)
    (hstack : s.addrStack = addrs ++ rest) (hlen : addrs.length = n) (hn : Named base s bind k ρ)
    (hd : decode bind k l = none) (hg : Grounded bind l)
    (hrun : recMacroMakeHeapTerm arity (l.map (·, false) ++ tail) s = some s')
    (hm : ∀ a, s'.Filled base a → mem a = s'.mem a) (t : Tuple Symbol Addr) :
    ¬Denotes arity mem user (addrs.map mem) t := by
  induction h generalizing s addrs rest bind k ρ tail t with
  | nil => cases hd
  | @var n f l hf _ ih =>
    obtain ⟨addr, addrs, rfl⟩ := exists_cons_of_length_eq_add_one hlen
    have hstack : s.addrStack = addr :: (addrs ++ rest) := hstack
    intro ht
    rw [map_cons, ← singleton_append] at ht
    obtain ⟨⟨t1, ht1⟩, t2, ht2⟩ := ht.of_append
    rw [show f :: l = [f] ++ l from rfl, decode_append] at hd
    have hg' : Grounded bind ([f] ++ l) := hg
    cases hd1 : decode bind k [f] with
    | some toks1 =>
      rw [hd1, bind_some, map_eq_none_iff] at hd
      obtain ⟨s₁, ρ1, h1⟩ := makes_var hs hstack hn hf hd1
      rw [show f :: l = [f] ++ l from rfl, map_append, append_assoc, h1.run] at hrun
      exact ih h1.holes h1.stack (Nat.succ.inj hlen) h1.named hd (hg'.append.2 k) hrun t2 ht2
    | none =>
      -- The cell becomes an attributed variable, since the number has been met.
      obtain ⟨hgf, -⟩ := hg'.append
      rw [decode, if_pos hf] at hd1
      rw [Grounded, if_pos hf] at hgf
      by_cases hnew : isNewTrieVar f = true
      · rw [if_pos hnew, decode] at hd1
        cases hd1
      rw [if_neg hnew] at hd1 hgf
      by_cases hattv : isNewTrieAttv f = true
      · obtain ⟨c', s₁, hcell⟩ : ∃ c' s₁, makeHeapCell arity
            { s with addrStack := addrs ++ rest } addr (f, false) = (.attv c', s₁) := by
          rw [makeHeapCell, hf]
          simp only
          rw [if_neg hnew, if_pos hattv]
          exact ⟨_, _, rfl⟩
        obtain ⟨holes, hpush⟩ :=
          makeHeapCell_pushes arity { s with addrStack := addrs ++ rest } addr (f, false)
        rw [map_cons, cons_append, recMacroMakeHeapTerm_cons hstack, hcell] at hrun
        rw [hcell] at hpush
        obtain ⟨hs1, -, hfilled, hmem, -⟩ := hpush.fill (c := .attv c') hs hstack
        obtain ⟨hfilled', hmem'⟩ := (recMacroMakeHeapTerm_grows hs1 hrun).filled _ hfilled
        rw [hm _ hfilled', hmem', hmem] at ht1
        cases ht1 with
        | var hd _ | const hd _ | list hd _ _ _ _ | struct hd _ _ _ _ => cases hd
      · rw [if_neg hattv] at hd1
        cases hbind : bind (decodeTrieVar f) with
        | none => exact hgf.1 (Bool.eq_false_iff.mpr hattv) hbind
        | some j =>
          rw [hbind] at hd1
          cases hd1
  | @app n f l l' hf hl _ ihargs ih =>
    obtain ⟨addr, addrs, rfl⟩ := exists_cons_of_length_eq_add_one hlen
    have hstack : s.addrStack = addr :: (addrs ++ rest) := hstack
    intro ht
    have hg' : Grounded bind ([f] ++ (l ++ l')) := hg
    obtain ⟨hgl, hgl'⟩ := (hg'.append.2 k).append
    have hstate : decodeState bind k [f] = (bind, k) := if_neg fun h => hf.1 h.1
    rw [hstate] at hgl hgl'
    rw [show f :: (l ++ l') = (f :: l) ++ l' from rfl, decode_append, decode_symbol hf.1] at hd
    obtain ⟨c, s₁, args, hcell, hpush, hbind, hargs, hbuild⟩ :=
      makeHeapCell_plain hf { s with addrStack := addrs ++ rest } addr
    obtain ⟨hs1, hgrows, hfilled, hmem, hstack1⟩ := hpush.fill (c := c) hs hstack
    rw [map_cons, cons_append, recMacroMakeHeapTerm_cons hstack, hcell, map_append,
      append_assoc] at hrun
    have hrest := recMacroMakeHeapTerm_grows hs1 hrun
    obtain ⟨hfilled', hmem'⟩ := hrest.filled _ hfilled
    cases hd2 : decode bind k l with
    | none =>
      rw [map_cons, hm _ hfilled', hmem', hmem] at ht
      have hnew : ∀ a, a.area = .heap → s.hreg ≤ a.pos → a.pos < s₁.hreg → a ∉ args →
          mem a = s₁.mem a := by
        intro a harea hle hlt ha
        obtain ⟨htaken, hsame⟩ := hpush.taken (c := c) hs hstack harea hle hlt ha
        obtain ⟨htaken', hsame'⟩ := hrest.filled a htaken
        exact (hm a htaken').trans (hsame'.trans hsame)
      obtain ⟨targs, -, htargs, -⟩ := hbuild.elim mem user t _ hnew ht
      exact ihargs hs1 hstack1 hargs (hn.grows hgrows hbind) hd2 hgl hrun targs htargs
    | some toks2 =>
      obtain ⟨s2, ρ2, h2⟩ := hl.makes hs1 hstack1 hargs (hn.grows hgrows hbind) hd2
      rw [hd2, map_some, bind_some, map_eq_none_iff,
        decodeState_symbol hf.1] at hd
      rw [h2.run] at hrun
      rw [map_cons, ← singleton_append] at ht
      obtain ⟨-, t2, ht2⟩ := ht.of_append
      exact ih h2.holes h2.stack (Nat.succ.inj hlen) h2.named hd (hgl' k) hrun t2 ht2

/-! ### The whole term -/

/-- A variable and the cell it is bound to dereference alike. -/
theorem deref_ref_iff {gen : Addr} {r : Cell} (hu : user gen) :
    Deref mem user (.ref gen) r ↔ Deref mem user (mem gen) r := by
  by_cases he : mem gen = .ref gen
  · rw [he]
  · constructor
    · intro h
      cases h with
      | var _ hself => exact absurd hself he
      | step _ _ h => exact h
    · exact .step hu he

theorem denotes_ref_iff {gen : Addr} (hu : user gen) :
    Denotes arity mem user (.ref gen :: cs) t ↔ Denotes arity mem user (mem gen :: cs) t := by
  constructor
  · intro h
    cases h with
    | var hd hcs => exact .var ((deref_ref_iff hu).mp hd) hcs
    | const hd hcs => exact .const ((deref_ref_iff hu).mp hd) hcs
    | list hd hx hx' hargs hcs => exact .list ((deref_ref_iff hu).mp hd) hx hx' hargs hcs
    | struct hd hx hf hargs hcs => exact .struct ((deref_ref_iff hu).mp hd) hx hf hargs hcs
  · intro h
    cases h with
    | var hd hcs => exact .var ((deref_ref_iff hu).mpr hd) hcs
    | const hd hcs => exact .const ((deref_ref_iff hu).mpr hd) hcs
    | list hd hx hx' hargs hcs => exact .list ((deref_ref_iff hu).mpr hd) hx hx' hargs hcs
    | struct hd hx hf hargs hcs => exact .struct ((deref_ref_iff hu).mpr hd) hx hf hargs hcs

/-- The cells to be filled after the first symbol. -/
theorem Pushes.first (h : Pushes s s₁ holes) (hs : s.addrStack = []) :
    Holes s.hreg s₁ ∧ s₁.addrStack = holes ++ [] ∧
      ∀ a, a.area = .heap → s.hreg ≤ a.pos → a.pos < s₁.hreg → a ∉ holes →
        s₁.Filled s.hreg a := by
  have hstack : s₁.addrStack = holes := by rw [h.stack, hs, append_nil]
  refine ⟨⟨h.hreg, hstack ▸ h.nodup, ?_⟩, by rw [hstack, append_nil], ?_⟩
  · rw [hstack]
    exact h.new
  · intro a harea hle hlt ha
    exact ⟨⟨harea, hle, hlt⟩, hstack ▸ ha⟩

/-- No variable has been made. -/
theorem Named.start (base : Nat) (s : BottomUp) (ρ : Nat → Addr) :
    Named base s (fun _ => none) 0 ρ where
  bound _ _ h := by cases h
  free j hj := absurd hj (Nat.not_lt_zero j)
  inj i hi := absurd hi (Nat.not_lt_zero i)

/-- The cells of the term: the variable it is unified with, and the new ones. -/
def BottomUp.Uses (gen : Addr) (base : Nat) (s : BottomUp) (a : Addr) : Prop :=
  a = gen ∨ s.New base a

variable {gen : Addr}

theorem tokenVariant_map {ρ : Nat → Addr} {toks : List (Symbol ⊕ Nat)}
    (h : ∀ i j, .inr i ∈ toks → .inr j ∈ toks → ρ i = ρ j → i = j) :
    TokenVariant toks (toks.map (Sum.map id ρ)) := by
  classical
  refine ⟨ρ, fun a => if ha : ∃ i, .inr i ∈ toks ∧ ρ i = a then ha.choose else 0, rfl, ?_⟩
  rw [List.map_map, map_eq_self_iff]
  intro x hx
  cases x with
  | inl f => rfl
  | inr i =>
    have hex : ∃ i', .inr i' ∈ toks ∧ ρ i' = ρ i := ⟨i, hx, rfl⟩
    simp only [comp_apply, Sum.map_inr, dif_pos hex]
    exact congrArg Sum.inr (h _ _ hex.choose_spec.1 hx hex.choose_spec.2)

/-- The macro makes a term from symbols that are decoded. -/
theorem macroMakeHeapTerm_makes (h : Spells arity 1 l) (hs : s.addrStack = [])
    (hgen : ¬(gen.area = .heap ∧ s.hreg ≤ gen.pos))
    (hd : decode (fun _ => none) 0 l = some toks) :
    ∃ c s', macroMakeHeapTerm arity gen (l.map (·, false)) s = some (c, s') ∧
      ∃ t, Denotes arity (update s'.mem gen c) (s'.Uses gen s.hreg) [.ref gen] t ∧
        TokenVariant toks t.tokens := by
  cases h with
  | @var _ f _ hf hl =>
    cases hl
    rw [decode, if_pos hf] at hd
    by_cases hnew : isNewTrieVar f = true
    · rw [if_pos hnew] at hd
      cases hd
      refine ⟨.ref gen, s.assign (decodeTrieVar f) (.ref gen), ?_, .var gen .nil, ?_, ?_⟩
      · obtain ⟨tag, val⟩ := f
        cases hf
        rw [map_singleton, macroMakeHeapTerm]
        simp only [makeHeapCell]
        rw [if_pos hnew, recMacroMakeHeapTerm]
        simp only [BottomUp.assign, hs, map_some, if_true, update_self,
          getD_some]
      · exact .var (.var (.inl rfl) (update_self ..)) .nil
      · exact ⟨fun _ => gen, fun _ => 0, rfl, rfl⟩
    · rw [if_neg hnew] at hd
      split at hd <;> cases hd
  | @app _ f l _ hf hl hnil =>
    cases hnil
    rw [append_nil] at hd ⊢
    rw [decode_symbol hf.1] at hd
    obtain ⟨toks, hdec, rfl⟩ := map_eq_some_iff.mp hd
    obtain ⟨c, s₁, args, hcell, hpush, -, hargs, hbuild⟩ := makeHeapCell_plain hf s gen
    obtain ⟨hs1, hstack, htaken⟩ := hpush.first hs
    obtain ⟨s', ρ', h'⟩ := hl.makes hs1 hstack hargs (Named.start _ _ fun _ => gen) hdec
    have hend : recMacroMakeHeapTerm arity (l.map (·, false)) s₁ = some s' := by
      have hrun := h'.run []
      rw [append_nil] at hrun
      rw [hrun, recMacroMakeHeapTerm, if_pos h'.stack]
    obtain ⟨t, ht, htoks⟩ := h'.term
    have hkeep : ∀ a, s'.New s.hreg a → update s'.mem gen c a = s'.mem a := by
      intro a ha
      apply update_of_ne
      rintro rfl
      exact hgen ⟨ha.1, ha.2.1⟩
    refine ⟨c, s', ?_, .app f t .nil, ?_, ?_⟩
    · rw [map_cons, macroMakeHeapTerm]
      simp only [hcell, hend, map_some, if_neg hf.1]
    · rw [denotes_ref_iff (.inl rfl), update_self]
      have hfill : args.map (update s'.mem gen c) = args.map s'.mem :=
        map_congr_left fun a ha => hkeep a (h'.filled a ha).1
      apply hbuild.intro _ _ t .nil [] _ _ .nil
      · intro a harea hle hlt
        by_cases ha : a ∈ args
        · exact ⟨.inr (h'.filled a ha).1, fun hn => absurd ha hn⟩
        · obtain ⟨hfilled, hsame⟩ := h'.grows.filled a (htaken a harea hle hlt ha)
          exact ⟨.inr hfilled.1, fun _ => (hkeep a hfilled.1).trans hsame⟩
      · rw [hfill]
        exact ht.mono fun a ha => ⟨.inr ha.1, hkeep a ha.1⟩
    · show TokenVariant (.inl f :: toks) (.inl f :: (t.tokens ++ []))
      rw [append_nil, htoks]
      apply tokenVariant_map
      intro i j hi hj he
      have hi' := h'.bound i ((mem_cons.mp hi).resolve_left Sum.inr_ne_inl)
      have hj' := h'.bound j ((mem_cons.mp hj).resolve_left Sum.inr_ne_inl)
      exact h'.named.inj i hi' j hj' he

/-- Where the macro reads an attributed variable, it makes no term. -/
theorem macroMakeHeapTerm_no_term (h : Spells arity 1 l) (hs : s.addrStack = [])
    (hgen : ¬(gen.area = .heap ∧ s.hreg ≤ gen.pos))
    (hd : decode (fun _ => none) 0 l = none) (hg : Grounded (fun _ => none) l)
    (hrun : macroMakeHeapTerm arity gen (l.map (·, false)) s = some (c, s'))
    (hu : user gen) (t : Tuple Symbol Addr) :
    ¬Denotes arity (update s'.mem gen c) user [.ref gen] t := by
  cases h with
  | @var _ f _ hf hl =>
    cases hl
    rw [decode, if_pos hf] at hd
    rw [Grounded, if_pos hf] at hg
    by_cases hnew : isNewTrieVar f = true
    · rw [if_pos hnew, decode] at hd
      cases hd
    · rw [if_neg hnew] at hg
      by_cases hattv : isNewTrieAttv f = true
      · obtain ⟨tag, val⟩ := f
        cases hf
        rw [map_singleton, macroMakeHeapTerm] at hrun
        simp only [makeHeapCell] at hrun
        rw [if_neg hnew, if_pos hattv, recMacroMakeHeapTerm, if_neg (cons_ne_nil _ _)] at hrun
        cases hrun
      · exact absurd rfl (hg.1 (Bool.eq_false_iff.mpr hattv))
  | @app _ f l _ hf hl hnil =>
    cases hnil
    rw [append_nil] at hd hg hrun
    rw [decode_symbol hf.1, map_eq_none_iff] at hd
    rw [Grounded, if_neg hf.1] at hg
    obtain ⟨c', s₁, args, hcell, hpush, -, hargs, hbuild⟩ := makeHeapCell_plain hf s gen
    obtain ⟨hs1, hstack, htaken⟩ := hpush.first hs
    rw [map_cons, macroMakeHeapTerm, hcell] at hrun
    simp only [if_neg hf.1] at hrun
    obtain ⟨s2, hloop, he⟩ := map_eq_some_iff.mp hrun
    cases he
    rw [← append_nil (l.map (·, false))] at hloop
    have hkeep : ∀ a, s'.Filled s.hreg a → update s'.mem gen c a = s'.mem a := by
      intro a ha
      apply update_of_ne
      rintro rfl
      exact hgen ⟨ha.1.1, ha.1.2.1⟩
    rw [denotes_ref_iff hu, update_self]
    intro ht
    have hnew : ∀ a, a.area = .heap → s.hreg ≤ a.pos → a.pos < s₁.hreg → a ∉ args →
        update s'.mem gen c a = s₁.mem a := by
      intro a harea hle hlt ha
      obtain ⟨hfilled, hsame⟩ :=
        (recMacroMakeHeapTerm_grows hs1 hloop).filled a (htaken a harea hle hlt ha)
      exact (hkeep a hfilled).trans hsame
    obtain ⟨targs, -, htargs, -⟩ := hbuild.elim _ user t [] hnew ht
    exact hl.no_term hs1 hstack hargs (Named.start _ _ fun _ => gen) hd hg hloop hkeep targs htargs

end XSBEngine.Terms
