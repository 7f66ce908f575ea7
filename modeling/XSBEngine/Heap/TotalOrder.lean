import XSBEngine.Heap.CompareTerms

/-!
# How far terms are totally ordered

`compare` on arguments, which may be variables of the local stack. It follows the standard order
just if the terms are decided.
-/

namespace XSBEngine.Heap

open Function PrefixTerms

/-- A cell in use: of the heap or of the local stack. -/
def Stacks.Used (r : Registers) (s : Stacks) (a : Nat) : Prop :=
  a < s.hreg ∨ r.topOfLocalstk ≤ a

/-- A variable that is not moved to the heap. -/
def Registers.heapVar (r : Registers) (a : Nat) : Prop :=
  ¬(r.topOfLocalstk ≤ a ∧ a + 1 ≤ r.glstackHigh)

/-- An argument of `compare`: any variable, or a term whose variables are on the heap. -/
inductive Argument (r : Registers) (s : Stacks) (c : Cell) : Tuple Symbol Nat → Prop where
  | var {a : Nat} : Derefs s.mem (s.Used r) c (.ref a) → Argument r s c (.var a .nil)
  | term {t : Tuple Symbol Nat} : Holds s.mem (s.Used r) r.heapVar [c] t → Argument r s c t

/-- Cells are kept, but for variables of the local stack that are moved to the heap. -/
def Moved (r : Registers) (s s' : Stacks) : Prop :=
  ∀ a, s.Used r a → s'.mem a = s.mem a ∨ ¬r.heapVar a ∧ s.mem a = .ref a ∧
    ∃ b, s.hreg ≤ b ∧ b < r.topOfLocalstk ∧ b < s'.hreg ∧ s'.mem a = .ref b ∧ s'.mem b = .ref b

/-- `compare` returns in a state with a result of which the sign is given. -/
def Returns (fl : Floats) (r : Registers) (s : Stacks) (c c' : Cell) (o : Ordering) (s' : Stacks) :
    Prop :=
  ∃ N, ∀ n ≥ N, (compare fl r n s c c').map (fun p => (orderOf p.1, p.2)) = some (o, s')

/-- The result is the order of the terms that the arguments then are. -/
def Ordered (ord : Tuple Symbol Nat → Tuple Symbol Nat → Ordering) (fl : Floats) (r : Registers)
    (s : Stacks) (c c' : Cell) : Prop :=
  ∃ s' t t', Returns fl r s c c' (ord t t') s' ∧ Moved r s s' ∧ Argument r s' c t ∧
    Argument r s' c' t'

variable {fl : Floats} {r : Registers} {s s' : Stacks} {c c' v v' : Cell} {t t' : Tuple Symbol Nat}
  {a b : Nat} {o o' : Ordering}

theorem Returns.unique {s1 s2 : Stacks} (h : Returns fl r s c c' o s1)
    (h' : Returns fl r s c c' o' s2) : o = o' ∧ s1 = s2 := by
  obtain ⟨N, hN⟩ := h
  obtain ⟨N', hN'⟩ := h'
  have heq := hN (N + N') (by omega)
  rw [hN' (N + N') (by omega)] at heq
  cases heq
  exact ⟨rfl, rfl⟩

theorem Moved.refl (r : Registers) (s : Stacks) : Moved r s s := fun _ _ => .inl rfl

/-! ### Terms -/

section

variable (h : Argument r s c t)
include h

/-- A variable, or a term with a functor. -/
theorem Argument.root :
    (∃ a, t = .var a .nil ∧ Derefs s.mem (s.Used r) c (.ref a)) ∨
      ∃ v f args targs, t = .app f targs .nil ∧ Derefs s.mem (s.Used r) c v ∧
        Root s.mem r.heapVar v (.inl f) args ∧ Holds s.mem (s.Used r) r.heapVar args targs := by
  cases h with
  | var hd => exact .inl ⟨_, rfl, hd⟩
  | term h =>
    cases h with
    | var hd hr hrest =>
      cases hrest
      cases hr
      exact .inl ⟨_, rfl, hd⟩
    | app hd hr hargs hrest =>
      cases hrest
      exact .inr ⟨_, _, _, _, rfl, hd, hr, hargs⟩

theorem Argument.unique (h' : Argument r s c t') : t = t' := by
  rcases h.root with ⟨a, rfl, hd⟩ | ⟨v, f, args, targs, rfl, hd, hr, hargs⟩
  · rcases h'.root with ⟨b, rfl, hd'⟩ | ⟨v', f', args', targs', rfl, hd', hr', -⟩
    · cases hd.unique hd'
      rfl
    · rw [← hd.unique hd'] at hr'
      cases hr'
  · rcases h'.root with ⟨b, rfl, hd'⟩ | ⟨v', f', args', targs', rfl, hd', hr', hargs'⟩
    · rw [hd.unique hd'] at hr
      cases hr
    · rw [hd.unique hd'] at hr
      obtain ⟨hf, rfl⟩ := hr.unique hr'
      cases hf
      rw [hargs.unique hargs']

theorem Argument.isTerm : IsTerm t := by
  cases h with
  | var => exact ⟨rfl, trivial⟩
  | term h => exact ⟨h.length, h.ranked⟩

theorem Argument.inRange : InRange t := by
  cases h with
  | var => exact List.forall_mem_cons.mpr ⟨trivial, fun _ hx => absurd hx List.not_mem_nil⟩
  | term h => exact h.inRange

end

/-- A variable comes before a term with a functor, wherever it is. -/
theorem compareDerefed_var {cmp : Stacks → Cell → Cell → Option (Int × Stacks)} {f : Symbol}
    {args : List Cell} {ok : Nat → Prop} (hr : Root s.mem ok v (.inl f) args) :
    compareDerefed fl r cmp s (.ref a) v = some (-1, s) ∧
      compareDerefed fl r cmp s v (.ref a) = some (1, s) := by
  have hr0 := hr
  cases hr with
  | boxed =>
    refine ⟨rfl, ?_⟩
    simp only [compareDerefed, hr0.isboxedinteger_int]
    rfl
  | struct =>
    refine ⟨rfl, ?_⟩
    simp only [compareDerefed, hr0.isboxedinteger_struct, hr0.isboxedfloat]
    rfl
  | _ => exact ⟨rfl, rfl⟩

theorem compare_derefed {N N' : Nat} (hN : ∀ n ≥ N, deref s.mem n c = some v)
    (hN' : ∀ n ≥ N', deref s.mem n c' = some v') {n : Nat} (hn : N + N' ≤ n) :
    compare fl r (n + 1) s c c' = compareDerefed fl r (compare fl r n) s v v' := by
  simp only [compare, hN n (by omega), hN' n (by omega), Option.bind_eq_bind, Option.bind_some]

/-- Unless both terms are variables, their symbols are compared. -/
theorem Argument.agrees (h : Argument r s c t) (h' : Argument r s c' t')
    (hvar : ∀ a b, t = .var a .nil → t' ≠ .var b .nil) :
    ∃ N, ∀ n ≥ N, Agree (compare fl r n s c c') s (tokenOrder t.tokens t'.tokens) := by
  rcases h.root with ⟨a, rfl, hd⟩ | ⟨v, f, args, targs, rfl, hd, hr, hargs⟩
  · rcases h'.root with ⟨b, rfl, hd'⟩ | ⟨v', f', args', targs', rfl, hd', hr', -⟩
    · exact absurd rfl (hvar a b rfl)
    · obtain ⟨N, hN⟩ := hd.eval
      obtain ⟨N', hN'⟩ := hd'.eval
      refine ⟨N + N' + 1, fun n hn => ?_⟩
      obtain ⟨n, rfl⟩ := Nat.exists_eq_add_of_le' (show 1 ≤ n by omega)
      rw [compare_derefed hN hN' (by omega), (compareDerefed_var hr').1]
      rfl
  · rcases h'.root with ⟨b, rfl, hd'⟩ | ⟨v', f', args', targs', rfl, hd', hr', hargs'⟩
    · obtain ⟨N, hN⟩ := hd.eval
      obtain ⟨N', hN'⟩ := hd'.eval
      refine ⟨N + N' + 1, fun n hn => ?_⟩
      obtain ⟨n, rfl⟩ := Nat.exists_eq_add_of_le' (show 1 ≤ n by omega)
      rw [compare_derefed hN hN' (by omega), (compareDerefed_var hr).2]
      cases f <;> rfl
    · have hheap : r.OnHeap r.heapVar := fun _ ha => ha
      simp only [Tuple.tokens, List.append_nil]
      exact compare_head hheap hd hr hargs hd' hr' hargs' (hargs.compares hheap hargs')

theorem ordered_iff_of_agree (h : Argument r s c t) (h' : Argument r s c' t')
    (hagree : ∃ N, ∀ n ≥ N, Agree (compare fl r n s c c') s (tokenOrder t.tokens t'.tokens)) :
    Ordered stdCompare fl r s c c' ↔ Decided t t' := by
  rw [← tokenOrder_iff h.isTerm h'.isTerm h.inRange h'.inRange]
  obtain ⟨N, hN⟩ := hagree
  constructor
  · rintro ⟨s', t1, t1', ⟨M, hM⟩, -, h1, h1'⟩
    have hcode := hN (N + M) (by omega)
    rw [Agree, hM (N + M) (by omega)] at hcode
    cases hq : tokenOrder t.tokens t'.tokens with
    | none =>
      rw [hq] at hcode
      cases hcode
    | some q =>
      rw [hq] at hcode
      obtain ⟨hq', hs⟩ := Prod.mk.inj (Option.some.inj hcode)
      cases hs
      rw [← hq', h.unique h1, h'.unique h1']
  · intro hcode
    rw [hcode] at hN
    exact ⟨s, t, t', ⟨N, hN⟩, .refl r s, h, h'⟩

/-! ### Variables -/

theorem Derefs.used_var {mem : Nat → Cell} {used : Nat → Prop} (h : Derefs mem used c v)
    (hv : v = .ref a) : used a := by
  induction h with
  | value h => rw [hv] at h; exact h.elim
  | free hu _ => cases hv; exact hu
  | ref _ _ _ ih => exact ih hv

/-- A free variable is bound to a new one, which it then is. -/
theorem Derefs.moved {mem mem' : Nat → Cell} {used used' : Nat → Prop} {h0 : Nat}
    (h : Derefs mem used c (.ref b)) (ha : mem a = .ref a) (hne : h0 ≠ a)
    (hold : ∀ x, used x → x ≠ a → mem' x = mem x) (hused : ∀ x, used x → used' x)
    (hmem : mem' a = .ref h0) (hnew : mem' h0 = .ref h0) (hh0 : used' h0) :
    Derefs mem' used' c (.ref (if b = a then h0 else b)) := by
  generalize hv : Cell.ref b = v at h
  induction h with
  | value h => rw [← hv] at h; exact h.elim
  | @free x hu hx =>
    cases hv
    split
    next heq =>
      subst heq
      exact .ref (hused _ hu) (by rw [hmem]; exact fun h => hne (Cell.ref.inj h))
        (by rw [hmem]; exact .free hh0 hnew)
    next hba => exact .free (hused _ hu) ((hold _ hu hba).trans hx)
  | @ref x c hu hx _ ih =>
    have hxa : x ≠ a := by
      rintro rfl
      exact hx ha
    have hkeep := hold x hu hxa
    exact .ref (hused _ hu) (by rw [hkeep]; exact hx) (by rw [hkeep]; exact ih hv)

/-- What is known of a state in which a variable may have been moved. -/
structure Globalized (r : Registers) (s s' : Stacks) (a a' : Nat) : Prop where
  moved : Moved r s s'
  used : ∀ x, s.Used r x → s'.Used r x
  hreg : s.hreg ≤ s'.hreg ∧ s'.hreg ≤ s.hreg + 1
  free : s'.mem a' = .ref a'
  derefs : ∀ c b, Derefs s.mem (s.Used r) c (.ref b) →
    Derefs s'.mem (s'.Used r) c (.ref (if b = a then a' else b))

theorem globalize_spec (hroom : s.hreg < r.topOfLocalstk) (ha : s.mem a = .ref a)
    (hused : s.Used r a) :
    Globalized r s (globalize r s a).2 a (globalize r s a).1 := by
  rw [globalize]
  split
  next hlocal =>
    have hne : s.hreg ≠ a := by omega
    have hsub : ∀ x, s.Used r x → ({ (s.write s.hreg (.ref s.hreg)).bindCopy r a (.ref s.hreg) with
        hreg := s.hreg + 1 } : Stacks).Used r x := by
      intro x hx
      exact hx.imp (fun hlt => Nat.lt_succ_of_lt hlt) id
    have hmem : ∀ x, s.Used r x → x ≠ a →
        ((s.write s.hreg (.ref s.hreg)).bindCopy r a (.ref s.hreg)).mem x = s.mem x := by
      intro x hx hxa
      have hxh : x ≠ s.hreg := by
        rintro rfl
        exact hx.elim (fun h => absurd h (Nat.lt_irrefl _)) (fun h => by omega)
      rw [Stacks.bindCopy_mem, update_of_ne hxa, Stacks.write_mem,
        update_of_ne hxh]
    have hself : ((s.write s.hreg (.ref s.hreg)).bindCopy r a (.ref s.hreg)).mem a =
        .ref s.hreg := by
      rw [Stacks.bindCopy_mem, update_self]
    have hnew : ((s.write s.hreg (.ref s.hreg)).bindCopy r a (.ref s.hreg)).mem s.hreg =
        .ref s.hreg := by
      rw [Stacks.bindCopy_mem, update_of_ne hne, Stacks.write_mem,
        update_self]
    refine ⟨?_, hsub, ⟨Nat.le_succ _, le_rfl⟩, hnew, ?_⟩
    · intro x hx
      by_cases hxa : x = a
      · subst hxa
        exact .inr ⟨fun h => h hlocal, ha, s.hreg, le_rfl, hroom, Nat.lt_succ_self _, hself, hnew⟩
      · exact .inl (hmem x hx hxa)
    · intro c b hd
      exact hd.moved ha hne hmem hsub hself hnew (.inl (Nat.lt_succ_self _))
  next =>
    refine ⟨.refl r s, fun _ h => h, ⟨le_rfl, Nat.le_succ _⟩, ha, fun c b hd => ?_⟩
    split
    next heq => exact heq ▸ hd
    next => exact hd

theorem globalize_var (hroom : s.hreg < r.topOfLocalstk) :
    (globalize r s a).1 = a ∨ ¬s.Used r (globalize r s a).1 := by
  rw [globalize]
  split
  next hlocal =>
    right
    rintro (hlt | hle)
    · exact Nat.lt_irrefl _ hlt
    · exact Nat.not_le_of_lt hroom hle
  next => exact .inl rfl

theorem Moved.trans {s1 s2 : Stacks} (h : Moved r s s1) (h' : Moved r s1 s2)
    (hused : ∀ x, s.Used r x → s1.Used r x) (hle : s.hreg ≤ s1.hreg) (hle' : s1.hreg ≤ s2.hreg) :
    Moved r s s2 := by
  intro x hx
  rcases h x hx with heq | ⟨hlocal, hfree, b, hb, htop, hlt, hxb, hbb⟩
  · rcases h' x (hused x hx) with heq' | ⟨hlocal, hfree, b, hb, hrest⟩
    · exact .inl (heq'.trans heq)
    · exact .inr ⟨hlocal, heq ▸ hfree, b, hle.trans hb, hrest⟩
  · have hbheap : r.heapVar b := fun hl => by omega
    refine .inr ⟨hlocal, hfree, b, hb, htop, by omega, ?_, ?_⟩
    · rcases h' x (hused x hx) with heq' | ⟨-, hfree', -⟩
      · exact heq'.trans hxb
      · rw [hxb] at hfree'
        cases hfree'
        exact absurd hbheap hlocal
    · rcases h' b (.inl hlt) with heq' | ⟨hlocal', -⟩
      · exact heq'.trans hbb
      · exact absurd hbheap hlocal'

/-- Two variables: their order is that of their cells, after they are moved to the heap. -/
theorem ordered_vars (hroom : s.hreg + 2 ≤ r.topOfLocalstk)
    (h : Derefs s.mem (s.Used r) c (.ref a)) (h' : Derefs s.mem (s.Used r) c' (.ref b)) :
    Ordered stdCompare fl r s c c' := by
  obtain ⟨N, hN⟩ := h.eval
  obtain ⟨N', hN'⟩ := h'.eval
  have ha := h.free_cell rfl
  have hb := h'.free_cell rfl
  by_cases hab : a = b
  · subst hab
    refine ⟨s, .var a .nil, .var a .nil, ⟨N + N' + 1, fun n hn => ?_⟩, .refl r s, .var h, .var h'⟩
    obtain ⟨n, rfl⟩ := Nat.exists_eq_add_of_le' (show 1 ≤ n by omega)
    rw [compare_derefed hN hN' (by omega), compareDerefed, if_pos rfl, stdCompare_var,
      Std.compare_self]
    rfl
  · have g1 := globalize_spec (by omega) ha (h.used_var rfl)
    have hvar := globalize_var (a := a) (show s.hreg < r.topOfLocalstk by omega)
    generalize hg : globalize r s a = p at g1 hvar
    obtain ⟨a', s1⟩ := p
    have hd1 := g1.derefs c a h
    have hd1' := g1.derefs c' b h'
    rw [if_pos rfl] at hd1
    rw [if_neg (Ne.symm hab)] at hd1'
    have hle : s1.hreg ≤ s.hreg + 1 := g1.hreg.2
    have hroom1 : s1.hreg < r.topOfLocalstk := by omega
    have g2 := globalize_spec hroom1 (hd1'.free_cell rfl) (hd1'.used_var rfl)
    generalize hg' : globalize r s1 b = p' at g2
    obtain ⟨b', s2⟩ := p'
    have hab' : a' ≠ b := by
      rintro rfl
      exact hvar.elim (fun heq => hab heq.symm) fun hn => hn (h'.used_var rfl)
    have hd2 := g2.derefs c a' hd1
    have hd2' := g2.derefs c' b hd1'
    rw [if_neg hab'] at hd2
    rw [if_pos rfl] at hd2'
    refine ⟨s2, .var a' .nil, .var b' .nil, ⟨N + N' + 1, fun n hn => ?_⟩, ?_, .var hd2, .var hd2'⟩
    · obtain ⟨n, rfl⟩ := Nat.exists_eq_add_of_le' (show 1 ≤ n by omega)
      have hne : Cell.ref a ≠ .ref b := fun heq => hab (Cell.ref.inj heq)
      simp only [compare_derefed hN hN' (show N + N' ≤ n by omega), compareDerefed, if_neg hne,
        compareRef, hg, hg', Option.map_some, orderOf_signOf, orderOf_sub, stdCompare_var]
    · exact g1.moved.trans g2.moved g1.used g1.hreg.1 g2.hreg.1

/-! ### The order of terms -/

theorem decided_vars (a b : Nat) : Decided (.var a .nil) (.var b .nil) := by
  by_cases hab : a = b
  · subst hab
    rw [Decided, Tuple.tokens, decisive, if_pos (indistinct_self _)]
    rfl
  · have hne : indistinct (.inr a) (.inr b) = false :=
      decide_eq_false fun heq => hab (Sum.inr.inj heq)
    have hdec : decisive [.inr a] [.inr b] = some (.inr a, .inr b) :=
      if_neg (by rw [hne]; decide)
    rw [Decided, Tuple.tokens, Tuple.tokens, Tuple.tokens, Tuple.tokens, hdec]
    trivial

theorem ordered_iff (hroom : s.hreg + 2 ≤ r.topOfLocalstk) (h : Argument r s c t)
    (h' : Argument r s c' t') : Ordered stdCompare fl r s c c' ↔ Decided t t' := by
  by_cases hvar : ∃ a b, t = .var a .nil ∧ t' = .var b .nil
  case pos =>
    obtain ⟨a, b, rfl, rfl⟩ := hvar
    apply iff_of_true _ (decided_vars a b)
    rcases h.root with ⟨_, heq, hd⟩ | ⟨_, _, _, _, heq, -⟩
    · rcases h'.root with ⟨_, heq', hd'⟩ | ⟨_, _, _, _, heq', -⟩
      · exact ordered_vars hroom hd hd'
      · cases heq'
    · cases heq
  case neg =>
    apply ordered_iff_of_agree h h'
    apply h.agrees h'
    intro a b ha hb
    exact hvar ⟨a, b, ha, hb⟩

/-- On a set of cells, `compare` is a total order that is compatible with identity. -/
structure TotallyOrders (fl : Floats) (r : Registers) (s : Stacks) (K : Set Cell)
    (term : Cell → Tuple Symbol Nat) : Prop where
  total : ∀ c ∈ K, ∀ c' ∈ K, ∃ o, Returns fl r s c c' o s
  identical : ∀ c ∈ K, ∀ c' ∈ K,
    (Returns fl r s c c' .eq s ↔ (term c).relabel Symbol.std = (term c').relabel Symbol.std)
  opposite : ∀ c ∈ K, ∀ c' ∈ K, ∀ o, Returns fl r s c c' o s → Returns fl r s c' c o.swap s
  trans : ∀ c ∈ K, ∀ c' ∈ K, ∀ c'' ∈ K, ∀ o o', Returns fl r s c c' o s →
    Returns fl r s c' c'' o' s →
    o.isLE → o'.isLE → ∃ o'', Returns fl r s c c'' o'' s ∧ o''.isLE

theorem Holds.single {mem : Nat → Cell} {used ok : Nat → Prop} (h : Holds mem used ok [c] t) :
    ∃ v x args targs, t.tokens = x :: targs.tokens ∧ Derefs mem used c v ∧ Root mem ok v x args ∧
      Holds mem used ok args targs := by
  cases h with
  | var hd hr hrest =>
    cases hrest
    exact ⟨_, _, _, .nil, rfl, hd, hr, .nil⟩
  | app hd hr hargs hrest =>
    cases hrest
    refine ⟨_, _, _, _, ?_, hd, hr, hargs⟩
    rw [Tuple.tokens, Tuple.tokens, List.append_nil]

theorem Holds.agrees (h : Holds s.mem (s.Used r) r.heapVar [c] t)
    (h' : Holds s.mem (s.Used r) r.heapVar [c'] t') :
    ∃ N, ∀ n ≥ N, Agree (compare fl r n s c c') s (tokenOrder t.tokens t'.tokens) := by
  have hheap : r.OnHeap r.heapVar := fun _ ha => ha
  obtain ⟨v, x, args, targs, ht, hd, hr, hargs⟩ := h.single
  obtain ⟨v', y, args', targs', ht', hd', hr', hargs'⟩ := h'.single
  rw [ht, ht']
  exact compare_head hheap hd hr hargs hd' hr' hargs' (hargs.compares hheap hargs')

/-- Terms that are decided are compared by their standard order. -/
theorem Holds.returns_iff (h : Holds s.mem (s.Used r) r.heapVar [c] t)
    (h' : Holds s.mem (s.Used r) r.heapVar [c'] t') (hdec : Decided t t') :
    Returns fl r s c c' o s ↔ o = stdCompare t t' := by
  have hcode := (tokenOrder_iff (Argument.term h).isTerm (Argument.term h').isTerm h.inRange
    h'.inRange).mpr hdec
  obtain ⟨N, hN⟩ := (h.agrees h' : ∃ N, ∀ n ≥ N, Agree (compare fl r n s c c') s _)
  rw [hcode] at hN
  have hstd : Returns fl r s c c' (stdCompare t t') s := ⟨N, hN⟩
  constructor
  · intro ho
    exact (ho.unique hstd).1
  · rintro rfl
    exact hstd

theorem totallyOrders {K : Set Cell} {term : Cell → Tuple Symbol Nat}
    (hterm : ∀ c ∈ K, Holds s.mem (s.Used r) r.heapVar [c] (term c))
    (hdec : ∀ c ∈ K, ∀ c' ∈ K, Decided (term c) (term c')) : TotallyOrders fl r s K term := by
  have hiff : ∀ c ∈ K, ∀ c' ∈ K, ∀ o,
      Returns fl r s c c' o s ↔ o = stdCompare (term c) (term c') := fun c hc c' hc' o =>
    (hterm c hc).returns_iff (hterm c' hc') (hdec c hc c' hc')
  constructor
  case total => exact fun c hc c' hc' => ⟨_, (hiff c hc c' hc' _).mpr rfl⟩
  case identical =>
    intro c hc c' hc'
    rw [hiff c hc c' hc', eq_comm]
    exact stdCompare_isTermOrder.eq_iff _ _ (Argument.term (hterm c hc)).isTerm
      (Argument.term (hterm c' hc')).isTerm
  case opposite =>
    intro c hc c' hc' o ho
    rw [hiff c' hc' c hc, (hiff c hc c' hc' o).mp ho]
    exact (stdCompare_isTermOrder.swap _ _).symm
  case trans =>
    intro c hc c' hc' c'' hc'' o o' ho ho' hle hle'
    rw [(hiff c hc c' hc' o).mp ho] at hle
    rw [(hiff c' hc' c'' hc'' o').mp ho'] at hle'
    exact ⟨_, (hiff c hc c'' hc'' _).mpr rfl, stdCompare_isTermOrder.trans _ _ _ hle hle'⟩

/-- `compare` follows a total order of terms just if they are decided, and so is one on every set
of terms on the heap of which any two are. -/
theorem compare_orders_iff (fl : Floats) (r : Registers) (s : Stacks) :
    IsTermOrder stdCompare ∧
      (∀ c c' t t', s.hreg + 2 ≤ r.topOfLocalstk → Argument r s c t → Argument r s c' t' →
        (Ordered stdCompare fl r s c c' ↔ Decided t t')) ∧
      ∀ K term, (∀ c ∈ K, Holds s.mem (s.Used r) r.heapVar [c] (term c)) →
        (∀ c ∈ K, ∀ c' ∈ K, Decided (term c) (term c')) → TotallyOrders fl r s K term :=
  ⟨stdCompare_isTermOrder, fun _ _ _ _ hroom h h' => ordered_iff hroom h h',
    fun _ _ hterm hdec => totallyOrders hterm hdec⟩

/-! ### Examples -/

/-- A heap of 20 cells below a local stack from 100 on. -/
def sampleRegisters : Registers := ⟨100, 200, 100, 100, 0, 0⟩

/-- The largest integer of 64 bits, boxed, and a list with a variable as its tail. -/
def sampleStacks : Stacks where
  mem
    | 0 => .functor boxPsc
    | 1 => .int (1 <<< (16 : Nat))
    | 2 => .int (2 ^ 39 - 1)
    | 3 => .int (2 ^ 24 - 1)
    | 4 => .int 7
    | a => .ref a
  hreg := 20
  trail := []

theorem sample_max : Argument sampleRegisters sampleStacks (.cs 0)
    (.app (.int (2 ^ 63 - 1)) .nil .nil) :=
  .term (.app (.value trivial) (.boxed rfl rfl rfl rfl rfl : Root _ _ _
    (.inl (.int (boxedInt (2 ^ 39 - 1) (2 ^ 24 - 1)))) _) .nil .nil)

theorem sample_int (i : Int) (hi : -2 ^ 60 ≤ i ∧ i < 2 ^ 60) :
    Holds sampleStacks.mem (sampleStacks.Used sampleRegisters) sampleRegisters.heapVar [.int i]
      (.app (.int i) .nil .nil) :=
  .app (.value trivial) (.int hi) .nil .nil

theorem sample_list :
    Holds sampleStacks.mem (sampleStacks.Used sampleRegisters) sampleRegisters.heapVar [.list 4]
      (.app .list (.app (.int 7) .nil (.var 5 .nil)) .nil) :=
  .app (.value trivial) (.list 4)
    (.app (.value trivial) (.int (by decide)) .nil
      (.var (.free (.inl (by decide)) rfl) (.var fun h => absurd h.1 (by decide)) .nil)) .nil

/-- No order of terms is that of `compare`: -2 comes after the largest integer. -/
theorem compare_not_ordered : ¬∃ ord, IsTermOrder ord ∧ ∀ fl r s c c' t t',
    s.hreg + 2 ≤ r.topOfLocalstk → Argument r s c t → Argument r s c' t' →
      Ordered ord fl r s c c' := by
  rintro ⟨ord, hord, h⟩
  have hint := Argument.term (sample_int (-2) (by decide))
  obtain ⟨s', t, t', hret, -, ht, ht'⟩ := h Floats.ieee sampleRegisters sampleStacks (.int (-2))
    (.cs 0) _ _ (by decide) hint sample_max
  have hgt : Returns Floats.ieee sampleRegisters sampleStacks (.int (-2)) (.cs 0) .gt
      sampleStacks := by
    refine ⟨2, fun n hn => ?_⟩
    obtain ⟨n, rfl⟩ := Nat.exists_eq_add_of_le' hn
    rfl
  obtain ⟨horder, rfl⟩ := hret.unique hgt
  rw [ht.unique hint, ht'.unique sample_max, hord.int] at horder
  revert horder
  decide

/-- A list comes after a boxed integer, and a single term is totally ordered. -/
theorem compare_orders_sample :
    Ordered stdCompare Floats.ieee sampleRegisters sampleStacks (.list 4) (.cs 0) ∧
      TotallyOrders Floats.ieee sampleRegisters sampleStacks {.int 7}
        (fun _ => .app (.int 7) .nil .nil) :=
  ⟨((compare_orders_iff _ _ _).2.1 _ _ _ _ (by decide) (.term sample_list) sample_max).mpr trivial,
    (compare_orders_iff _ _ _).2.2 _ _
      (fun _ hc => by rw [Set.mem_singleton_iff.mp hc]; exact sample_int 7 (by decide))
      (fun _ _ _ _ => rfl)⟩

end XSBEngine.Heap
