import XSBEngine.Heap.StandardOrder

/-!
# Terms on the stacks and their comparison

Which terms cells hold, and what `compare` returns for them.
-/

namespace XSBEngine.Heap

open List Option PrefixTerms

/-! ### Terms on the stacks -/

/-- Values that are neither variables nor PSC records. -/
def Cell.IsValue : Cell → Prop
  | .ref _ => False
  | .attv _ => False
  | .functor _ => False
  | _ => True

/-- What a cell dereferences to, by cells in use. -/
inductive Derefs (mem : Nat → Cell) (used : Nat → Prop) : Cell → Cell → Prop where
  | value {c : Cell} : c.IsValue → Derefs mem used c c
  | free {a : Nat} : used a → mem a = .ref a → Derefs mem used (.ref a) (.ref a)
  | ref {a : Nat} {c : Cell} : used a → mem a ≠ .ref a → Derefs mem used (mem a) c →
      Derefs mem used (.ref a) c

/-- The root of a dereferenced term and the cells of its arguments. Variables satisfy a condition,
integers in cells have 61 bits. -/
inductive Root (mem : Nat → Cell) (ok : Nat → Prop) : Cell → Token → List Cell → Prop where
  | var {a : Nat} : ok a → Root mem ok (.ref a) (.inr a) []
  | int {i : Int} : -2 ^ 60 ≤ i ∧ i < 2 ^ 60 → Root mem ok (.int i) (.inl (.int i)) []
  | boxed {a : Nat} {id hi lo : Int} : mem a = .functor boxPsc → mem (a + 1) = .int id →
      id >>> (16 : Nat) = idBoxedInt → mem (a + 2) = .int hi → mem (a + 3) = .int lo →
      Root mem ok (.cs a) (.inl (.int (boxedInt hi lo))) []
  | string (s : CString) : Root mem ok (.string s) (.inl (.string s)) []
  | list (a : Nat) : Root mem ok (.list a) (.inl .list) [mem a, mem (a + 1)]
  | struct {a : Nat} {p : Psc} : mem a = .functor p → p ≠ boxPsc →
      Root mem ok (.cs a) (.inl (.functor p)) ((List.range' 1 p.arity).map fun i => mem (a + i))

/-- The terms that cells hold. -/
inductive Holds (mem : Nat → Cell) (used ok : Nat → Prop) : List Cell → Tuple Symbol Nat →
    Prop where
  | nil : Holds mem used ok [] .nil
  | var {c v : Cell} {cs : List Cell} {a : Nat} {t : Tuple Symbol Nat} :
      Derefs mem used c v → Root mem ok v (.inr a) [] → Holds mem used ok cs t →
      Holds mem used ok (c :: cs) (.var a t)
  | app {c v : Cell} {cs args : List Cell} {f : Symbol} {targs t : Tuple Symbol Nat} :
      Derefs mem used c v → Root mem ok v (.inl f) args → Holds mem used ok args targs →
      Holds mem used ok cs t → Holds mem used ok (c :: cs) (.app f targs t)

variable {mem : Nat → Cell} {used ok : Nat → Prop} {c c' v v' : Cell} {x y : Token}
  {cs cs' args args' : List Cell} {t t' : Tuple Symbol Nat}

theorem Derefs.eval (h : Derefs mem used c v) : ∃ N, ∀ n ≥ N, deref mem n c = some v := by
  induction h with
  | @value c hv =>
    refine ⟨1, fun n hn => ?_⟩
    obtain ⟨n, rfl⟩ := Nat.exists_eq_add_of_le' hn
    cases c <;> first | rfl | exact hv.elim
  | free _ hmem =>
    refine ⟨1, fun n hn => ?_⟩
    obtain ⟨n, rfl⟩ := Nat.exists_eq_add_of_le' hn
    exact if_pos hmem
  | ref _ hmem _ ih =>
    obtain ⟨N, hN⟩ := ih
    refine ⟨N + 1, fun n hn => ?_⟩
    obtain ⟨n, rfl⟩ := Nat.exists_eq_add_of_le' (Nat.le_of_succ_le hn)
    obtain ⟨m, hm⟩ := Nat.exists_eq_succ_of_ne_zero (n := n + N) (by omega)
    rw [hm, deref, if_neg hmem]
    exact hN m (by omega)

theorem Derefs.unique (h : Derefs mem used c v) (h' : Derefs mem used c v') : v = v' := by
  obtain ⟨N, hN⟩ := h.eval
  obtain ⟨N', hN'⟩ := h'.eval
  have heq := hN (max N N') (Nat.le_max_left _ _)
  rw [hN' (max N N') (Nat.le_max_right _ _)] at heq
  exact (some.inj heq).symm

/-- A root is dereferenced. -/
theorem Root.deref (h : Root mem ok v x args) (hfree : ∀ a, v = .ref a → mem a = .ref a) {n : Nat} :
    Heap.deref mem (n + 1) v = some v := by
  cases h with
  | var => exact if_pos (hfree _ rfl)
  | int | boxed | string | list | struct => rfl

theorem Root.unique (h : Root mem ok v x args) (h' : Root mem ok v y args') :
    x = y ∧ args = args' := by
  cases h with
  | var | int | string | list => cases h'; exact ⟨rfl, rfl⟩
  | boxed hbox _ _ hhi hlo =>
    cases h' with
    | boxed _ _ _ hhi' hlo' =>
      rw [hhi] at hhi'
      rw [hlo] at hlo'
      cases hhi'
      cases hlo'
      exact ⟨rfl, rfl⟩
    | struct hp hne =>
      rw [hbox] at hp
      exact absurd (Cell.functor.inj hp).symm hne
  | struct hp hne =>
    cases h' with
    | boxed hbox =>
      rw [hbox] at hp
      exact absurd (Cell.functor.inj hp).symm hne
    | struct hp' =>
      rw [hp] at hp'
      cases hp'
      exact ⟨rfl, rfl⟩

theorem Holds.unique (h : Holds mem used ok cs t) (h' : Holds mem used ok cs t') : t = t' := by
  induction h generalizing t' with
  | nil => cases h'; rfl
  | var hd hr _ ih =>
    cases h' with
    | var hd' hr' hrest =>
      rw [hd.unique hd'] at hr
      cases (hr.unique hr').1
      rw [ih hrest]
    | app hd' hr' =>
      rw [hd.unique hd'] at hr
      cases (hr.unique hr').1
  | app hd hr _ _ ihargs ih =>
    cases h' with
    | var hd' hr' =>
      rw [hd.unique hd'] at hr
      cases (hr.unique hr').1
    | app hd' hr' hargs hrest =>
      rw [hd.unique hd'] at hr
      obtain ⟨hf, rfl⟩ := hr.unique hr'
      cases hf
      rw [ihargs hargs, ih hrest]

theorem Holds.length (h : Holds mem used ok cs t) : t.length = cs.length := by
  induction h with
  | nil => rfl
  | var _ _ _ ih | app _ _ _ _ _ ih => exact congrArg Nat.succ ih

theorem Root.rank {f : Symbol} (h : Root mem ok v (.inl f) args) : args.length = f.rank := by
  cases h with
  | struct => rw [length_map, length_range']; rfl
  | _ => rfl

theorem Holds.ranked (h : Holds mem used ok cs t) : t.Ranked Symbol.rank := by
  induction h with
  | nil => trivial
  | var _ _ _ ih => exact ih
  | app _ hr hargs _ ihargs ih => exact ⟨hargs.length.trans hr.rank, ihargs, ih⟩

theorem isWord_boxedInt (hi lo : Int) : IsWord (boxedInt hi lo) := by
  constructor
  · exact BitVec.le_toInt _
  · exact BitVec.toInt_lt

theorem Root.inRange (h : Root mem ok v x args) : x.InRange := by
  cases h with
  | int hi =>
    constructor
    · omega
    · omega
  | boxed => exact isWord_boxedInt _ _
  | _ => trivial

theorem Holds.inRange (h : Holds mem used ok cs t) : InRange t := by
  induction h with
  | nil => exact fun _ hx => absurd hx not_mem_nil
  | var _ hr _ ih => exact forall_mem_cons.mpr ⟨hr.inRange, ih⟩
  | app _ hr _ _ ihargs ih =>
    apply forall_mem_cons.mpr ⟨hr.inRange, _⟩
    intro x hx
    exact (mem_append.mp hx).elim (ihargs x) (ih x)

theorem Derefs.free_cell (h : Derefs mem used c v) {a : Nat} (hv : v = .ref a) :
    mem a = .ref a := by
  induction h with
  | value h => rw [hv] at h; exact h.elim
  | free _ hmem => cases hv; exact hmem
  | ref _ _ _ ih => exact ih hv

theorem Derefs.not_functor (h : Derefs mem used c v) (p : Psc) : c ≠ .functor p := by
  rintro rfl
  cases h with
  | value h => exact h.elim

theorem Holds.not_functor (h : Holds mem used ok cs t) (hc : c ∈ cs) (p : Psc) :
    c ≠ .functor p := by
  induction h with
  | nil => cases hc
  | var hd _ _ ih | app hd _ _ _ _ ih =>
    rcases mem_cons.mp hc with rfl | hc
    · exact hd.not_functor p
    · exact ih hc

/-! ### Roots -/

/-- The symbol is an integer. -/
def Token.isInt : Token → Bool
  | .inl (.int _) => true
  | _ => false

section

variable (h : Root mem ok v x args)
include h

theorem Root.isattv : v.isattv = false := by
  cases h <;> rfl

theorem Root.isref : v.isref = x.isRight := by
  cases h <;> rfl

theorem Root.isboxedfloat : isboxedfloat mem v = false := by
  cases h with
  | @boxed a _ _ _ hbox hid hnum =>
    have hne : boxHasId mem a idBoxedFloat = false := by
      rw [boxHasId, hid, intVal, hnum]
      rfl
    rw [Heap.isboxedfloat, hne, Bool.and_false]
  | @struct a p hp hne =>
    have hbox : isboxed mem (.cs a) = false := by
      rw [isboxed, hp]
      exact decide_eq_false fun heq => hne (Cell.functor.inj heq)
    rw [Heap.isboxedfloat, hbox, Bool.false_and]
  | _ => rfl

theorem Root.isofloat : isofloat mem v = false := by
  rw [Heap.isofloat, h.isboxedfloat]
  cases h <;> rfl

end

theorem Root.isboxedinteger_struct {a : Nat} {p : Psc}
    (h : Root mem ok (.cs a) (.inl (.functor p)) args) : isboxedinteger mem (.cs a) = false := by
  cases h with
  | struct hp hne =>
    have hbox : isboxed mem (.cs a) = false := by
      rw [isboxed, hp]
      exact decide_eq_false fun heq => hne (Cell.functor.inj heq)
    rw [Heap.isboxedinteger, hbox, Bool.false_and]

variable {i : Int} {targs targs' : Tuple Symbol Nat}

theorem Root.isboxedinteger_int {a : Nat}
    (h : Root mem ok (.cs a) (.inl (.int i)) args) : isboxedinteger mem (.cs a) = true := by
  cases h with
  | boxed hbox hid hnum =>
    rw [Heap.isboxedinteger, isboxed, hbox, boxHasId, hid, intVal, hnum]
    rfl

theorem Root.isointeger (h : Root mem ok v x args) : isointeger mem v = x.isInt := by
  have h0 := h
  cases h with
  | boxed =>
    rw [Heap.isointeger, h0.isboxedinteger_int]
    rfl
  | struct =>
    rw [Heap.isointeger, h0.isboxedinteger_struct]
    rfl
  | _ => rfl

theorem Root.ointVal (h : Root mem ok v (.inl (.int i)) args) : ointVal mem v = i := by
  cases h with
  | int => rfl
  | boxed _ _ _ hhi hlo => rw [Heap.ointVal, hhi, hlo]; rfl

theorem orderOf_signOf (r : Int) : orderOf (signOf r) = orderOf r := by
  rcases Int.lt_trichotomy r 0 with h | h | h
  · rw [signOf, if_neg (by omega), if_pos h, orderOf, orderOf, Int.compare_eq_lt.mpr h]
    rfl
  · rw [h]
    rfl
  · rw [signOf, if_pos h, orderOf, orderOf, Int.compare_eq_gt.mpr h]
    rfl

theorem compareInt_root (h : Root mem ok v y args) :
    symbolOrder (.inl (.int i)) y = some (orderOf (compareInt mem i v)) := by
  rw [compareInt, h.isref, h.isofloat, h.isattv, h.isointeger]
  rcases y with (j | s | _ | p) | b
  case inl.int =>
    rw [h.ointVal]
    exact congrArg some (orderOf_signOf _).symm
  all_goals rfl

theorem compareString_root {s : CString} (h : Root mem ok v y args) :
    symbolOrder (.inl (.string s)) y = some (orderOf (compareString mem s v)) := by
  have hfloat := h.isofloat
  have hint := h.isointeger
  cases h with
  | string s' =>
    show _ = some (orderOf (strcmp s s'))
    rw [strcmp_order]
    rfl
  | var | int | list => rfl
  | boxed =>
    simp only [compareString, hint, Token.isInt, Bool.or_true, Bool.true_or, if_true]
    rfl
  | struct =>
    simp only [compareString, hfloat, hint]
    rfl

theorem compareRef_root {r : Registers} {s : Stacks} {a : Nat}
    (hlocal : ∀ a, ok a → ¬(r.topOfLocalstk ≤ a ∧ a + 1 ≤ r.glstackHigh)) (ha : ok a)
    (h : Root mem ok v y args) :
    ∃ i, compareRef r s a v = (i, s) ∧ symbolOrder (.inr a) y = some (orderOf i) := by
  cases h with
  | var hb =>
    refine ⟨_, ?_, congrArg some ((orderOf_signOf _).trans (orderOf_sub _ _)).symm⟩
    simp only [compareRef, globalize, if_neg (hlocal _ ha), if_neg (hlocal _ hb)]
  | _ => exact ⟨-1, rfl, rfl⟩

/-! ### Structures -/

/-- The comparison returns in the same state, with the order of a result. -/
def Agree (o : Option (Int × Stacks)) (s : Stacks) (q : Option Ordering) : Prop :=
  o.map (fun p => (orderOf p.1, p.2)) = q.map (·, s)

variable {cmp : Stacks → Cell → Cell → Option (Int × Stacks)} {s : Stacks} {a b : Nat} {p q : Psc}

theorem getStrPsc_functor (h : mem a = .functor p) : getStrPsc mem a = some p := by
  rw [getStrPsc, h]

theorem compare_arity_ne {m n : Nat} (h : m ≠ n) : Ord.compare (m : Int) n ≠ .eq :=
  fun heq => h (Int.ofNat.inj (Std.LawfulEqCmp.eq_of_compare heq))

theorem then_of_ne {o o' : Ordering} (h : o ≠ .eq) : o.then o' = o := by
  cases o with
  | eq => exact absurd rfl h
  | lt | gt => rfl

/-- The order of functors that differ in arity or name. -/
theorem functorOrder_of_ne {o : Ordering} (hne : o ≠ .eq)
    (ho : (Ord.compare (p.arity : Int) q.arity).then (Ord.compare p.name.codes q.name.codes) = o) :
    functorOrder p q = some o := (functorOrder_key hne ho).1

theorem functorOrder_of_name (harity : p.arity = q.arity) (hname : p.name ≠ q.name) :
    functorOrder p q = some (orderOf (strcmp p.name q.name)) := by
  have hne : Ord.compare p.name.codes q.name.codes ≠ .eq :=
    fun heq => hname (CString.codes_inj (Std.LawfulEqCmp.eq_of_compare heq))
  rw [strcmp_order]
  apply functorOrder_of_ne hne
  rw [harity, Std.compare_self, Ordering.eq_then]

theorem compareStruct_distinct (hp : s.mem a = .functor p) (hq : s.mem b = .functor q)
    (h : indistinct (.inl (.functor p)) (.inl (.functor q)) = false) :
    Agree (compareStruct cmp s a b false) s (functorOrder p q) := by
  simp only [indistinct, Bool.or_eq_false_iff, decide_eq_false_iff_not] at h
  simp only [compareStruct, getStrPsc_functor hp, getStrPsc_functor hq, bind_eq_bind,
    bind_some, map_some, Bool.false_eq_true, if_false]
  split
  next harity =>
    have hne := compare_arity_ne harity
    rw [functorOrder_of_ne hne (then_of_ne hne)]
    exact congrArg (fun o => some (o, s)) (orderOf_sub _ _)
  next harity =>
    rw [not_not] at harity
    split
    next hstop =>
      have hname : p.name ≠ q.name := by
        rintro hname
        rcases hstop with hstop | hstop
        · exact hstop (strcmp_eq_zero.mpr hname)
        · simp [hname, hstop, ← harity] at h
      rw [functorOrder_of_name harity hname]
      rfl
    next hgo =>
      rw [not_or, not_not, strcmp_eq_zero] at hgo
      rw [if_pos fun heq => h.1 (Cell.functor.inj (hq.symm.trans heq)).symm,
        (functorOrder_mod harity hgo.1 hgo.2 h.1).1]
      cases p.mod with
      | none => rfl
      | some m =>
        cases q.mod with
        | none => rfl
        | some m' => exact congrArg (fun o => some (o, s)) (strcmp_order m m')

/-- A structure and a list with its functor: the head of the list is no PSC record. -/
theorem compareStruct_dot (hp : s.mem a = .functor p) (hhead : ∀ q, s.mem b ≠ .functor q) :
    Agree (compareStruct cmp s a b true) s (dotOrder p) := by
  have hnone : getStrPsc s.mem b = none := by
    rw [getStrPsc]
    split
    next q hq => exact absurd hq (hhead q)
    next => rfl
  simp only [compareStruct, getStrPsc_functor hp, hnone, bind_eq_bind, bind_some,
    if_true]
  split
  next harity =>
    have hne : Ord.compare (p.arity : Int) 2 ≠ .eq := compare_arity_ne (n := 2) harity
    rw [dotOrder, then_of_ne hne]
    have hsub : orderOf (p.arity - ((2 : Nat) : Int)) = Ord.compare (p.arity : Int) 2 :=
      orderOf_sub _ _
    rw [Agree, map_some, hsub]
    cases ho : Ord.compare (p.arity : Int) 2 with
    | eq => exact absurd ho hne
    | lt | gt => rfl
  next harity =>
    rw [not_not] at harity
    have hkey : (Ord.compare (p.arity : Int) 2).then (Ord.compare p.name.codes dotName.codes) =
        orderOf (strcmp p.name dotName) := by
      rw [harity, strcmp_order]
      rfl
    rw [dotOrder, hkey]
    split
    next hstop =>
      have hcomp : strcmp p.name dotName ≠ 0 := hstop.resolve_right (by omega)
      have hne : orderOf (strcmp p.name dotName) ≠ .eq :=
        fun heq => hcomp (Std.LawfulEqCmp.eq_of_compare heq)
      rw [Agree, map_some]
      cases ho : orderOf (strcmp p.name dotName) with
      | eq => exact absurd ho hne
      | lt | gt => rfl
    next hgo =>
      rw [not_or, not_not] at hgo
      rw [if_pos (hhead p), hgo.1]
      rfl

theorem compareStruct_same (hp : s.mem a = .functor p) (hq : s.mem b = .functor q)
    (h : indistinct (.inl (.functor p)) (.inl (.functor q)) = true) :
    compareStruct cmp s a b false = if p.arity = 0 then some (0, s)
      else compareArgs cmp s ((List.range' 1 p.arity).map fun i => (a + i, b + i)) := by
  have hkey : p.arity = q.arity ∧ p.name = q.name := by
    simp only [indistinct, Bool.or_eq_true, Bool.and_eq_true, decide_eq_true_eq] at h
    rcases h with rfl | h
    · exact ⟨rfl, rfl⟩
    · exact ⟨h.1.1.trans h.1.2.symm, h.2⟩
  simp only [compareStruct, getStrPsc_functor hp, getStrPsc_functor hq, bind_eq_bind,
    bind_some, map_some, Bool.false_eq_true, if_false]
  rw [if_neg (not_not.mpr hkey.1)]
  by_cases hzero : p.arity = 0
  · rw [if_pos hzero, if_pos (.inr hzero), strcmp_eq_zero.mpr hkey.2]
  · have hpq : p = q := by
      simp only [indistinct, Bool.or_eq_true, Bool.and_eq_true, decide_eq_true_eq] at h
      exact h.resolve_right fun h => hzero h.1.1
    rw [if_neg hzero, if_neg, if_neg (not_not.mpr (hpq ▸ hq))]
    exact fun hstop => hstop.elim (fun h0 => h0 (strcmp_eq_zero.mpr hkey.2)) hzero

/-! ### The step of the comparison -/

variable {fl : Floats} {r : Registers}

/-- No variable to which the condition applies is in the local stack. -/
def Registers.OnHeap (r : Registers) (ok : Nat → Prop) : Prop :=
  ∀ a, ok a → ¬(r.topOfLocalstk ≤ a ∧ a + 1 ≤ r.glstackHigh)

theorem Root.ne (h : Root mem ok v x args) (h' : Root mem ok v' y args')
    (hxy : indistinct x y = false) : v ≠ v' := by
  rintro rfl
  rw [(h.unique h').1, indistinct_self] at hxy
  cases hxy

theorem compareDerefed_struct {args : List Cell}
    (hr : Root s.mem ok (.cs a) (.inl (.functor p)) args)
    (hr' : Root s.mem ok v' y args') (hhead : ∀ c ∈ args', ∀ q, c ≠ .functor q)
    (hxy : indistinct (.inl (.functor p)) y = false) :
    Agree (compareDerefed fl r cmp s (.cs a) v') s (symbolOrder (.inl (.functor p)) y) := by
  simp only [compareDerefed, if_neg (hr.ne hr' hxy), hr.isboxedinteger_struct, hr.isboxedfloat,
    hr'.isboxedfloat, Bool.false_eq_true, if_false, Bool.or_false]
  have hr0 := hr'
  cases hr with
  | struct hp hne =>
    cases hr' with
    | var | int | string => rfl
    | list b => exact compareStruct_dot hp fun q => hhead _ mem_cons_self q
    | boxed =>
      rw [hr0.isboxedinteger_int]
      rfl
    | struct hq hne' =>
      rw [hr0.isboxedinteger_struct]
      exact compareStruct_distinct hp hq hxy

theorem Agree.neg {o : Option (Int × Stacks)} {o' : Option Ordering} (h : Agree o s o') :
    Agree (o.map fun p => (-p.1, p.2)) s (o'.map Ordering.swap) := by
  cases o with
  | none =>
    cases o' with
    | none => rfl
    | some o' => cases h
  | some p =>
    cases o' with
    | none => cases h
    | some o' =>
      obtain ⟨hord, hs⟩ := Prod.mk.inj (some.inj h)
      simp only [Agree, map_some, orderOf_neg, hord, hs]

theorem compareDerefed_distinct (hr : Root s.mem ok v x args) (hr' : Root s.mem ok v' y args')
    (hheap : r.OnHeap ok) (hhead : ∀ c ∈ args, ∀ q, c ≠ .functor q)
    (hhead' : ∀ c ∈ args', ∀ q, c ≠ .functor q) (hxy : indistinct x y = false)
    (hcmp : ∃ cmp', cmp s v' v = compareDerefed fl r cmp' s v' v) :
    Agree (compareDerefed fl r cmp s v v') s (symbolOrder x y) := by
  have hne := hr.ne hr' hxy
  have hr0 := hr
  cases hr with
  | var ha =>
    obtain ⟨i, hi, hord⟩ := compareRef_root (s := s) hheap ha hr'
    simp only [compareDerefed, if_neg hne, hi, hord]
    rfl
  | int =>
    simp only [compareDerefed, if_neg hne, compareInt_root hr']
    rfl
  | string =>
    simp only [compareDerefed, if_neg hne, compareString_root hr']
    rfl
  | boxed =>
    simp only [compareDerefed, if_neg hne, hr0.isboxedinteger_int, hr0.ointVal,
      compareInt_root hr', if_true]
    rfl
  | struct => exact compareDerefed_struct hr0 hr' hhead' hxy
  | list b =>
    obtain ⟨cmp', hcmp⟩ := hcmp
    have hr0' := hr'
    cases hr' with
    | var | int | string => simp only [compareDerefed, if_neg hne]; rfl
    | list => rw [indistinct_self] at hxy; cases hxy
    | @boxed a =>
      have hint : Agree (compareDerefed fl r cmp' s (.cs a) (.list b)) s (some .lt) := by
        simp only [compareDerefed, if_neg hne.symm, hr0'.isboxedinteger_int, if_true]
        rfl
      rw [← hcmp] at hint
      simp only [compareDerefed, if_neg hne]
      exact hint.neg
    | @struct a q =>
      have hstruct : Agree (compareDerefed fl r cmp' s (.cs a) (.list b)) s (dotOrder q) :=
        compareDerefed_struct hr0' hr0 hhead (by simp [indistinct])
      rw [← hcmp] at hstruct
      simp only [compareDerefed, if_neg hne]
      exact hstruct.neg

theorem compareInt_self (h : Root mem ok v (.inl (.int i)) args) :
    compareInt mem i v = 0 := by
  rw [compareInt, h.isref, h.isofloat, h.isattv, h.isointeger, h.ointVal, wrapSub, Int.sub_self]
  rfl

theorem indistinct_int (h : indistinct (.inl (.int i)) y = true) :
    y = .inl (.int i) := by
  rcases y with (j | s | _ | q) | b
  case inl.int => exact (of_decide_eq_true h).symm
  all_goals cases h

theorem Root.args_int (h : Root mem ok v (.inl (.int i)) args) : args = [] := by
  cases h <;> rfl

/-- Symbols that are not told apart: the arguments are compared. -/
theorem compareDerefed_same (fl : Floats) (r : Registers) (hr : Root s.mem ok v x args)
    (hr' : Root s.mem ok v' y args') (hxy : indistinct x y = true) (hne : v ≠ v') :
    ∃ l : List (Nat × Nat), l.map (fun p => s.mem p.1) = args ∧ l.map (fun p => s.mem p.2) = args' ∧
      ∀ cmp, compareDerefed fl r cmp s v v' = compareArgs cmp s l := by
  have hr0 := hr
  have hr0' := hr'
  cases hr with
  | var =>
    cases hr' with
    | var =>
      cases of_decide_eq_true hxy
      exact absurd rfl hne
    | _ => cases hxy
  | string =>
    cases hr' with
    | string =>
      cases of_decide_eq_true hxy
      exact absurd rfl hne
    | _ => cases hxy
  | int =>
    cases hr' with
    | int =>
      cases of_decide_eq_true hxy
      exact absurd rfl hne
    | boxed =>
      cases of_decide_eq_true hxy
      refine ⟨[], rfl, rfl, fun cmp => ?_⟩
      simp only [compareDerefed, if_neg hne, compareInt_self hr0']
      rfl
    | _ => cases hxy
  | boxed =>
    have hy := indistinct_int hxy
    subst hy
    refine ⟨[], rfl, hr0'.args_int.symm, fun cmp => ?_⟩
    simp only [compareDerefed, if_neg hne, hr0.isboxedinteger_int, hr0.ointVal, if_true,
      compareInt_self hr0']
    rfl
  | list a =>
    cases hr' with
    | list b =>
      refine ⟨[(a, b), (a + 1, b + 1)], rfl, rfl, fun cmp => ?_⟩
      simp only [compareDerefed, if_neg hne]
    | _ => cases hxy
  | @struct a p hp hbox =>
    cases hr' with
    | @struct b q hq hbox' =>
      refine ⟨(List.range' 1 p.arity).map fun i => (a + i, b + i), ?_, ?_, fun cmp => ?_⟩
      · rw [List.map_map]
        rfl
      · rw [List.map_map, show p.arity = q.arity from indistinct_rank hxy]
        rfl
      · simp only [compareDerefed, if_neg hne, hr0.isboxedinteger_struct, hr0.isboxedfloat,
          hr0'.isboxedinteger_struct, hr0'.isboxedfloat, Bool.false_eq_true, if_false,
          Bool.or_false]
        rw [compareStruct_same hp hq hxy]
        split
        next hzero =>
          rw [hzero]
          rfl
        next => rfl
    | _ => cases hxy

theorem compareArgs_cons {q q' : Option Ordering} {l : List (Nat × Nat)} {a b : Nat}
    (h : Agree (cmp s (s.mem a) (s.mem b)) s q) (hl : Agree (compareArgs cmp s l) s q') :
    Agree (compareArgs cmp s ((a, b) :: l)) s (andThen q q') := by
  rw [compareArgs]
  cases hcmp : cmp s (s.mem a) (s.mem b) with
  | none =>
    rw [hcmp] at h
    cases q with
    | none => rfl
    | some o => cases h
  | some p =>
    obtain ⟨i, s'⟩ := p
    rw [hcmp] at h
    cases q with
    | none => cases h
    | some o =>
      obtain ⟨hord, hs⟩ := Prod.mk.inj (some.inj h)
      cases hs
      cases hord
      simp only [bind_eq_bind, bind_some]
      by_cases hi : i = 0
      · rw [if_neg (not_not.mpr hi), hi]
        exact hl
      · rw [if_pos hi]
        have hne : orderOf i ≠ .eq := fun heq => hi (Std.LawfulEqCmp.eq_of_compare heq)
        rw [Agree, map_some]
        cases ho : orderOf i with
        | eq => exact absurd ho hne
        | lt | gt => rfl

/-- The loop over cells returns the order of the sequences of symbols that they hold. -/
def Compares (fl : Floats) (r : Registers) (s : Stacks) (cs cs' : List Cell) (l l' : List Token) :
    Prop :=
  ∃ N, ∀ n ≥ N, ∀ ps : List (Nat × Nat), ps.map (fun p => s.mem p.1) = cs →
    ps.map (fun p ↦ s.mem p.2) = cs' → Agree (compareArgs (compare fl r n) s ps) s (tokenOrder l l')

theorem compares_nil : Compares fl r s [] [] [] [] := by
  refine ⟨0, fun n _ l hl _ => ?_⟩
  rw [map_eq_nil_iff.mp hl]
  rfl

/-- The comparison of terms whose arguments are compared in their order. -/
theorem compare_head (hheap : r.OnHeap ok)
    (hd : Derefs s.mem used c v) (hr : Root s.mem ok v x args)
    (hargs : Holds s.mem used ok args targs)
    (hd' : Derefs s.mem used c' v') (hr' : Root s.mem ok v' y args')
    (hargs' : Holds s.mem used ok args' targs') (ih : args.length = args'.length →
      Compares fl r s args args' targs.tokens targs'.tokens) :
    ∃ N, ∀ n ≥ N, Agree (compare fl r n s c c') s
      (tokenOrder (x :: targs.tokens) (y :: targs'.tokens)) := by
  obtain ⟨N, hN⟩ := hd.eval
  obtain ⟨N', hN'⟩ := hd'.eval
  have hsucc : ∀ n ≥ N + N', compare fl r (n + 1) s c c' =
      compareDerefed fl r (compare fl r n) s v v' := by
    intro n hn
    simp only [compare, hN n (by omega), hN' n (by omega), bind_eq_bind, bind_some]
  by_cases hxy : indistinct x y = true
  case pos =>
    rw [tokenOrder_same hxy]
    by_cases hv : v = v'
    case pos =>
      subst hv
      obtain ⟨-, rfl⟩ := hr.unique hr'
      refine ⟨N + N' + 1, fun n hn => ?_⟩
      obtain ⟨n, rfl⟩ := Nat.exists_eq_add_of_le' (show 1 ≤ n by omega)
      rw [hsucc n (by omega), hargs.unique hargs', tokenOrder_self]
      exact congrArg _ (if_pos rfl)
    case neg =>
      obtain ⟨l, hl, hl', hcode⟩ := compareDerefed_same fl r hr hr' hxy hv
      have hlen : args.length = args'.length := by
        rw [← hl, ← hl', length_map, length_map]
      obtain ⟨M, hM⟩ := ih hlen
      refine ⟨N + N' + M + 1, fun n hn => ?_⟩
      obtain ⟨n, rfl⟩ := Nat.exists_eq_add_of_le' (show 1 ≤ n by omega)
      rw [hsucc n (by omega), hcode]
      exact hM n (by omega) l hl hl'
  case neg =>
    rw [Bool.not_eq_true] at hxy
    rw [tokenOrder_distinct hxy]
    refine ⟨N + N' + 3, fun n hn => ?_⟩
    obtain ⟨n, rfl⟩ := Nat.exists_eq_add_of_le' (show 3 ≤ n by omega)
    rw [hsucc (n + 2) (by omega)]
    apply compareDerefed_distinct hr hr' hheap (fun c hc => hargs.not_functor hc)
      (fun c hc => hargs'.not_functor hc) hxy
    refine ⟨compare fl r (n + 1), ?_⟩
    simp only [compare, hr.deref (fun a => hd.free_cell), hr'.deref (fun a => hd'.free_cell),
      bind_eq_bind, bind_some]

theorem indistinct_args (hr : Root mem ok v x args) (hr' : Root mem ok v' y args')
    (h : indistinct x y = true) : args.length = args'.length := by
  rcases x with f | a <;> rcases y with g | b
  case inl.inl => rw [hr.rank, hr'.rank, indistinct_rank h]
  case inl.inr => cases f <;> cases h
  case inr.inl => cases h
  case inr.inr =>
    cases hr
    cases hr'
    rfl

/-- The first terms of two tuples, and the others. -/
theorem tokenOrder_head (hr : Root mem ok v x args)
    (hr' : Root mem ok v' y args') (hargs : Holds mem used ok args targs)
    (hargs' : Holds mem used ok args' targs') (l l' : List Token) :
    tokenOrder (x :: (targs.tokens ++ l)) (y :: (targs'.tokens ++ l')) =
      andThen (tokenOrder (x :: targs.tokens) (y :: targs'.tokens)) (tokenOrder l l') := by
  by_cases hxy : indistinct x y = true
  case pos =>
    rw [tokenOrder_same hxy, tokenOrder_same hxy]
    apply tokenOrder_append hargs.ranked hargs'.ranked _ hargs.inRange hargs'.inRange
    rw [hargs.length, hargs'.length, indistinct_args hr hr' hxy]
  case neg =>
    rw [Bool.not_eq_true] at hxy
    rw [tokenOrder_distinct hxy, tokenOrder_distinct hxy]
    have hstop := (symbolOrder_spec hxy hr.inRange hr'.inRange).1
    cases hcode : symbolOrder x y with
    | none => rfl
    | some o =>
      cases o with
      | eq => exact absurd hcode hstop
      | lt | gt => rfl

theorem compares_cons (hheap : r.OnHeap ok)
    (hd : Derefs s.mem used c v) (hr : Root s.mem ok v x args)
    (hargs : Holds s.mem used ok args targs)
    (hd' : Derefs s.mem used c' v') (hr' : Root s.mem ok v' y args')
    (hargs' : Holds s.mem used ok args' targs')
    (ihargs : args.length = args'.length → Compares fl r s args args' targs.tokens targs'.tokens)
    (ih : Compares fl r s cs cs' t.tokens t'.tokens) :
    Compares fl r s (c :: cs) (c' :: cs') (x :: (targs.tokens ++ t.tokens))
      (y :: (targs'.tokens ++ t'.tokens)) := by
  obtain ⟨N, hN⟩ := compare_head hheap hd hr hargs hd' hr' hargs' ihargs
  obtain ⟨M, hM⟩ := ih
  refine ⟨N + M, fun n hn l hl hl' => ?_⟩
  cases l with
  | nil => cases hl
  | cons p l =>
    obtain ⟨hc, hcs⟩ := List.cons.inj hl
    obtain ⟨hc', hcs'⟩ := List.cons.inj hl'
    rw [tokenOrder_head hr hr' hargs hargs']
    apply compareArgs_cons
    · show Agree (compare fl r n s ((fun p => s.mem p.1) p) ((fun p => s.mem p.2) p)) s _
      rw [hc, hc']
      exact hN n (by omega)
    · exact hM n (by omega) l hcs hcs'

/-- The loop over arguments compares them as sequences of symbols. -/
theorem Holds.compares (hheap : r.OnHeap ok) (h : Holds s.mem used ok cs t)
    (h' : Holds s.mem used ok cs' t') (hlen : cs.length = cs'.length) :
    Compares fl r s cs cs' t.tokens t'.tokens := by
  induction h generalizing cs' t' with
  | nil =>
    cases h' with
    | nil => exact compares_nil
    | var | app => cases hlen
  | var hd hr _ ih =>
    cases h' with
    | nil => cases hlen
    | var hd' hr' hrest =>
      exact compares_cons hheap hd hr .nil hd' hr' .nil (fun _ => compares_nil)
        (ih hrest (Nat.succ.inj hlen))
    | app hd' hr' hargs' hrest =>
      apply compares_cons hheap hd hr .nil hd' hr' hargs' _ (ih hrest (Nat.succ.inj hlen))
      intro hzero
      cases length_eq_zero_iff.mp hzero.symm
      cases hargs'
      exact compares_nil
  | app hd hr hargs _ ihargs ih =>
    cases h' with
    | nil => cases hlen
    | var hd' hr' hrest =>
      apply compares_cons hheap hd hr hargs hd' hr' .nil _ (ih hrest (Nat.succ.inj hlen))
      intro hzero
      exact ihargs .nil hzero
    | app hd' hr' hargs' hrest =>
      exact compares_cons hheap hd hr hargs hd' hr' hargs' (fun hlen => ihargs hargs' hlen)
        (ih hrest (Nat.succ.inj hlen))

end XSBEngine.Heap
