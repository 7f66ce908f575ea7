import XSBEngine.Heap.Compare

/-!
# What a comparison of terms should be

A total order on terms in which integers are ordered by their values and a list as the structure
`'.'/2`, and how far the symbols at which `compare` stops are ordered so.
-/

namespace XSBEngine.Heap

open List PrefixTerms

/-- The root of a term that is not a variable. Boxed integers are integers. -/
inductive Symbol where
  | int (i : Int)
  | string (s : CString)
  | list
  | functor (p : Psc)
deriving DecidableEq

/-- Symbols and variables in prefix notation. -/
abbrev Token := Symbol ⊕ Nat

def Symbol.rank : Symbol → Nat
  | .int _ => 0
  | .string _ => 0
  | .list => 2
  | .functor p => p.arity

/-- The PSC record `list_psc`. -/
def listPsc : Psc := ⟨dotName, 2, some globalName⟩

/-- A list is a structure with the functor of lists. -/
def Symbol.std : Symbol → Symbol
  | .list => .functor listPsc
  | f => f

/-- A single term. -/
def IsTerm (t : Tuple Symbol Nat) : Prop := t.length = 1 ∧ t.Ranked Symbol.rank

/-! ### The order -/

/-- The codes of a module. -/
def modCodes : Option CString → List Int
  | none => []
  | some m => 1 :: m.codes

/-- A functor as a sequence of numbers. -/
def Psc.codes (p : Psc) : List Int :=
  3 :: p.arity :: (byteCodes p.name.bytes ++ 0 :: modCodes p.mod)

/-- The same, without the module if there are no arguments. -/
def Psc.rootCodes (p : Psc) : List Int :=
  3 :: p.arity :: (byteCodes p.name.bytes ++ 0 :: if p.arity = 0 then [] else modCodes p.mod)

/-- Variables come before integers, then atoms, then structures by arity, name and module. -/
def Token.codes : Token → List Int
  | .inr a => [0, a]
  | .inl (.int i) => [1, i]
  | .inl (.string s) => 2 :: s.codes
  | .inl .list => listPsc.codes
  | .inl (.functor p) => p.codes

def Token.rootCodes : Token → List Int
  | .inl (.functor p) => p.rootCodes
  | x => Token.codes x

/-- The standard order: of the symbols, and then of the modules of structures without arguments. -/
def stdCompare (t t' : Tuple Symbol Nat) : Ordering :=
  Ord.compare [t.tokens.map Token.rootCodes, t.tokens.map Token.codes]
    [t'.tokens.map Token.rootCodes, t'.tokens.map Token.codes]

theorem modCodes_inj {m m' : Option CString} (h : modCodes m = modCodes m') : m = m' := by
  cases m with
  | none =>
    cases m' with
    | none => rfl
    | some m' => cases h
  | some m =>
    cases m' with
    | none => cases h
    | some m' => rw [CString.codes_inj (List.cons.inj h).2]

/-- The name is read back from the codes up to the NUL. -/
theorem name_codes_inj {s s' : CString} {l l' : List Int}
    (h : byteCodes s.bytes ++ 0 :: l = byteCodes s'.bytes ++ 0 :: l') : s = s' ∧ l = l' := by
  have hord := strcmpBytes_order s.noNul s'.noNul l l'
  rw [h, Std.compare_self, Ordering.then_eq_eq] at hord
  have hs : s = s' := by
    have hcmp := strcmp_order s s'
    rw [strcmp, hord.1] at hcmp
    exact CString.codes_inj (Std.LawfulEqCmp.eq_of_compare hcmp.symm)
  exact ⟨hs, Std.LawfulEqCmp.eq_of_compare hord.2⟩

theorem Psc.codes_inj {p q : Psc} (h : p.codes = q.codes) : p = q := by
  simp only [codes, List.cons.injEq, true_and] at h
  obtain ⟨harity, hrest⟩ := h
  obtain ⟨hname, hmod⟩ := name_codes_inj hrest
  exact Psc.ext hname (Int.ofNat.inj harity) (modCodes_inj hmod)

variable {x y : Token} {t t' : Tuple Symbol Nat}

theorem Token.codes_inj (h : x.codes = y.codes) :
    Sum.map Symbol.std id x = Sum.map Symbol.std id y := by
  rcases x with (i | s | _ | p) | a <;> rcases y with (j | s' | _ | q) | b
  case inl.int.inl.int => cases h; rfl
  case inl.string.inl.string => rw [CString.codes_inj (List.cons.inj h).2]
  case inl.list.inl.list => rfl
  case inl.list.inl.functor => rw [← Psc.codes_inj (p := listPsc) h]; rfl
  case inl.functor.inl.list => rw [Psc.codes_inj (q := listPsc) h]; rfl
  case inl.functor.inl.functor => rw [Psc.codes_inj h]
  case inr.inr => cases h; rfl
  all_goals cases h

theorem Token.codes_std (x : Token) : Token.codes (Sum.map Symbol.std id x) = x.codes := by
  rcases x with (i | s | _ | p) | a <;> rfl

theorem Token.rootCodes_std (x : Token) :
    Token.rootCodes (Sum.map Symbol.std id x) = x.rootCodes := by
  rcases x with (i | s | _ | p) | a <;> rfl

theorem Symbol.rank_std (f : Symbol) : f.std.rank = f.rank := by
  cases f <;> rfl

theorem map_codes_inj {l l' : List Token} (h : l.map Token.codes = l'.map Token.codes) :
    l.map (Sum.map Symbol.std id) = l'.map (Sum.map Symbol.std id) := by
  induction l generalizing l' with
  | nil =>
    cases l' with
    | nil => rfl
    | cons y l' => cases h
  | cons x l ih =>
    cases l' with
    | nil => cases h
    | cons y l' =>
      rw [map_cons, map_cons, List.cons.injEq] at h
      rw [map_cons, map_cons, Token.codes_inj h.1, ih h.2]

/-- The codes of a term, list or structure, are those of the structure. -/
theorem stdCompare_relabel (t t' : Tuple Symbol Nat) :
    stdCompare (t.relabel Symbol.std) (t'.relabel Symbol.std) = stdCompare t t' := by
  have hcodes : Token.codes ∘ Sum.map Symbol.std id = Token.codes := funext Token.codes_std
  have hroot : Token.rootCodes ∘ Sum.map Symbol.std id = Token.rootCodes :=
    funext Token.rootCodes_std
  simp only [stdCompare, Tuple.tokens_relabel, map_map, hcodes, hroot]

/-- An order on terms, total and compatible with their identity, in which integers are ordered by
value and a list as a structure. -/
structure IsTermOrder (ord : Tuple Symbol Nat → Tuple Symbol Nat → Ordering) : Prop where
  eq_iff : ∀ t t', IsTerm t → IsTerm t' →
    (ord t t' = .eq ↔ t.relabel Symbol.std = t'.relabel Symbol.std)
  swap : ∀ t t', ord t' t = (ord t t').swap
  trans : ∀ t t' t'', (ord t t').isLE → (ord t' t'').isLE → (ord t t'').isLE
  int : ∀ i j : Int, ord (.app (.int i) .nil .nil) (.app (.int j) .nil .nil) = Ord.compare i j
  list : ∀ args t, ord (.app .list args .nil) t = ord (.app (.functor listPsc) args .nil) t

theorem stdCompare_eq_iff (h : IsTerm t) (h' : IsTerm t') :
    stdCompare t t' = .eq ↔ t.relabel Symbol.std = t'.relabel Symbol.std := by
  constructor
  · intro heq
    rw [stdCompare] at heq
    have hcodes := Std.LawfulEqCmp.eq_of_compare heq
    simp only [List.cons.injEq, and_true] at hcodes
    apply Tuple.tokens_inj (h.2.relabel Symbol.rank_std) (h'.2.relabel Symbol.rank_std)
    · rw [Tuple.length_relabel, Tuple.length_relabel, h.1, h'.1]
    · rw [Tuple.tokens_relabel, Tuple.tokens_relabel, map_codes_inj hcodes.2]
  · intro heq
    rw [← stdCompare_relabel, heq]
    exact Std.compare_self

theorem stdCompare_single (k i j : Int)
    (ht : t.tokens = [x]) (ht' : t'.tokens = [y]) (hx : x.codes = [k, i]) (hy : y.codes = [k, j])
    (hx' : x.rootCodes = [k, i]) (hy' : y.rootCodes = [k, j]) :
    stdCompare t t' = Ord.compare i j := by
  rw [stdCompare, ht, ht', map_singleton, map_singleton, map_singleton,
    map_singleton, hx, hy, hx', hy']
  simp only [List.compare_cons_cons, Std.compare_self, Ordering.then_eq, Ordering.eq_then]
  cases Ord.compare i j <;> rfl

/-- Variables are ordered by their addresses. -/
theorem stdCompare_var (a b : Nat) :
    stdCompare (.var a .nil) (.var b .nil) = Ord.compare (a : Int) b :=
  stdCompare_single 0 a b rfl rfl rfl rfl rfl rfl

/-- The standard order is one. -/
theorem stdCompare_isTermOrder : IsTermOrder stdCompare where
  eq_iff _ _ h h' := stdCompare_eq_iff h h'
  swap _ _ := by
    rw [stdCompare, stdCompare]
    exact Std.OrientedCmp.eq_swap
  trans _ _ _ h h' := by
    rw [stdCompare] at h h' ⊢
    exact Std.TransCmp.isLE_trans h h'
  int i j := stdCompare_single 1 i j rfl rfl rfl rfl rfl rfl
  list args t := by
    rw [← stdCompare_relabel, ← stdCompare_relabel (.app (.functor listPsc) args .nil)]
    rfl

/-! ### Symbols at which the comparison stops -/

/-- `compare` on the functors of structures. -/
def functorOrder (p q : Psc) : Option Ordering :=
  match (Ord.compare (p.arity : Int) q.arity).then (Ord.compare p.name.codes q.name.codes) with
  | .eq =>
    if p.arity = 0 ∨ p = q then some .eq
    else do some (Ord.compare (← p.mod).codes (← q.mod).codes)
  | o => some o

/-- `compare` on the functor of a structure and a list. -/
def dotOrder (p : Psc) : Option Ordering :=
  match (Ord.compare (p.arity : Int) 2).then (Ord.compare p.name.codes dotName.codes) with
  | .eq => none
  | o => some o

/-- `compare` on the roots of terms. -/
def symbolOrder : Token → Token → Option Ordering
  | .inr a, .inr b => some (Ord.compare (a : Int) b)
  | .inr _, .inl _ => some .lt
  | .inl _, .inr _ => some .gt
  | .inl (.int i), .inl (.int j) => some (orderOf (wrapSub i j))
  | .inl (.int _), .inl _ => some .lt
  | .inl _, .inl (.int _) => some .gt
  | .inl (.string s), .inl (.string s') => some (Ord.compare s.codes s'.codes)
  | .inl (.string _), .inl _ => some .lt
  | .inl _, .inl (.string _) => some .gt
  | .inl .list, .inl .list => some .eq
  | .inl (.functor p), .inl .list => dotOrder p
  | .inl .list, .inl (.functor q) => (dotOrder q).map Ordering.swap
  | .inl (.functor p), .inl (.functor q) => functorOrder p q

/-- The symbols are the same, but for the module of a structure without arguments. -/
def indistinct : Token → Token → Bool
  | .inl (.functor p), .inl (.functor q) =>
    decide (p = q) || (decide (p.arity = 0) && decide (q.arity = 0) && decide (p.name = q.name))
  | x, y => decide (x = y)

/-- The first symbols that differ by more than that. -/
def decisive : List Token → List Token → Option (Token × Token)
  | x :: l, y :: l' => if indistinct x y then decisive l l' else some (x, y)
  | _, _ => none

/-- The difference of integers does not overflow, modules to compare are set, and no structure has
the functor of the list that it is compared with. -/
def Sound : Token → Token → Prop
  | .inl (.int i), .inl (.int j) => -2 ^ 63 ≤ i - j ∧ i - j < 2 ^ 63
  | .inl (.functor p), .inl (.functor q) =>
    p.arity = q.arity → p.name = q.name → p.mod.isSome ∧ q.mod.isSome
  | .inl (.functor p), .inl .list => p.arity = 2 → p.name ≠ dotName
  | .inl .list, .inl (.functor q) => q.arity = 2 → q.name ≠ dotName
  | _, _ => True

/-- The terms are identical, or told apart by symbols that are compared as they should be. -/
def Decided (t t' : Tuple Symbol Nat) : Prop :=
  match decisive t.tokens t'.tokens with
  | none => t.relabel Symbol.std = t'.relabel Symbol.std
  | some (x, y) => Sound x y

/-- What `compare` returns for terms in prefix notation. -/
def tokenOrder (l l' : List Token) : Option Ordering :=
  match decisive l l' with
  | none => some .eq
  | some (x, y) => symbolOrder x y

/-- Integers are those of machine words. -/
def IsWord (i : Int) : Prop := -2 ^ 63 ≤ i ∧ i < 2 ^ 63

def Token.InRange : Token → Prop
  | .inl (.int i) => IsWord i
  | _ => True

theorem indistinct_rootCodes (h : indistinct x y = true) :
    x.rootCodes = y.rootCodes := by
  unfold indistinct at h
  split at h
  next p q =>
    rw [Bool.or_eq_true, decide_eq_true_eq] at h
    rcases h with rfl | h
    · rfl
    · simp only [Bool.and_eq_true, decide_eq_true_eq] at h
      simp only [Token.rootCodes, Psc.rootCodes, h, if_pos]
  next => rw [decide_eq_true_eq.mp h]

/-- Wrapped around, a difference that overflows has the other sign. -/
theorem wrapSub_order {i j : Int} (hi : IsWord i) (hj : IsWord j) :
    orderOf (wrapSub i j) =
      if -2 ^ 63 ≤ i - j ∧ i - j < 2 ^ 63 then Ord.compare i j else Ord.compare j i := by
  obtain ⟨hi1, hi2⟩ := hi
  obtain ⟨hj1, hj2⟩ := hj
  split
  next h =>
    rw [wrapSub, Int.bmod_eq_of_le (by omega) (by omega), orderOf_sub]
  next h =>
    have hwrap : wrapSub i j = i - j - 2 ^ 64 ∧ j < i ∨ wrapSub i j = i - j + 2 ^ 64 ∧ i < j := by
      simp only [wrapSub, Int.bmod_def]
      omega
    rcases hwrap with ⟨hwrap, hlt⟩ | ⟨hwrap, hlt⟩
    · rw [hwrap, Int.compare_eq_lt.mpr hlt]
      exact Int.compare_eq_lt.mpr (by omega)
    · rw [hwrap, Int.compare_eq_gt.mpr hlt]
      exact Int.compare_eq_gt.mpr (by omega)

/-- Functors are ordered by arity, then by name. -/
theorem codes_order (a b : Int) (s s' : CString) (k k' : List Int) :
    Ord.compare (3 :: a :: (byteCodes s.bytes ++ 0 :: k))
        (3 :: b :: (byteCodes s'.bytes ++ 0 :: k')) =
      ((Ord.compare a b).then (Ord.compare s.codes s'.codes)).then (Ord.compare k k') := by
  rw [List.compare_cons_cons, List.compare_cons_cons, Std.compare_self,
    ← strcmpBytes_order s.noNul s'.noNul, ← strcmp_order, Ordering.then_assoc]
  rfl

/-- The order of arities and names is decisive unless they are equal. -/
theorem functor_key_eq {a b : Nat} {s s' : CString} :
    (Ord.compare (a : Int) b).then (Ord.compare s.codes s'.codes) = .eq ↔ a = b ∧ s = s' := by
  rw [Ordering.then_eq_eq]
  constructor
  · rintro ⟨harity, hname⟩
    exact ⟨Int.ofNat.inj (Std.LawfulEqCmp.eq_of_compare harity),
      CString.codes_inj (Std.LawfulEqCmp.eq_of_compare hname)⟩
  · rintro ⟨rfl, rfl⟩
    exact ⟨Std.compare_self, Std.compare_self⟩

/-- Functors that are told apart by arity or name. -/
theorem functorOrder_key {p q : Psc} {o : Ordering} (hne : o ≠ .eq)
    (ho : (Ord.compare (p.arity : Int) q.arity).then (Ord.compare p.name.codes q.name.codes) = o) :
    functorOrder p q = some o ∧ Ord.compare p.rootCodes q.rootCodes = o := by
  rw [functorOrder, Psc.rootCodes, Psc.rootCodes, codes_order, ho]
  cases o with
  | eq => exact absurd rfl hne
  | lt | gt => exact ⟨rfl, rfl⟩

theorem functorOrder_mod {p q : Psc} (harity : p.arity = q.arity) (hname : p.name = q.name)
    (hpos : p.arity ≠ 0) (hne : p ≠ q) :
    functorOrder p q = (do some (Ord.compare (← p.mod).codes (← q.mod).codes)) ∧
      Ord.compare p.rootCodes q.rootCodes = Ord.compare (modCodes p.mod) (modCodes q.mod) := by
  have ho := functor_key_eq.mpr ⟨harity, hname⟩
  constructor
  · simp only [functorOrder, ho]
    exact if_neg fun h => h.elim hpos hne
  · rw [Psc.rootCodes, Psc.rootCodes, codes_order, ho, if_neg hpos, if_neg (harity ▸ hpos)]
    rfl

theorem functorOrder_spec {p q : Psc}
    (h : indistinct (.inl (.functor p)) (.inl (.functor q)) = false) :
    functorOrder p q ≠ some .eq ∧
      (functorOrder p q = some (Ord.compare p.rootCodes q.rootCodes) ↔
        Sound (.inl (.functor p)) (.inl (.functor q))) := by
  by_cases hkey : p.arity = q.arity ∧ p.name = q.name
  case neg =>
    obtain ⟨hcode, hroot⟩ := functorOrder_key (fun heq => hkey (functor_key_eq.mp heq)) rfl
    constructor
    · intro heq
      exact hkey (functor_key_eq.mp (Option.some.inj (hcode.symm.trans heq)))
    · apply iff_of_true (hcode.trans (congrArg some hroot.symm))
      intro harity hname
      exact absurd ⟨harity, hname⟩ hkey
  case pos =>
    obtain ⟨harity, hname⟩ := hkey
    simp only [indistinct, Bool.or_eq_false_iff, decide_eq_false_iff_not, Bool.and_eq_false_iff]
      at h
    have hpos : p.arity ≠ 0 := by
      intro h0
      rcases h.2 with (h2 | h2) | h2
      · exact h2 h0
      · exact h2 (harity ▸ h0)
      · exact h2 hname
    obtain ⟨hcode, hroot⟩ := functorOrder_mod harity hname hpos h.1
    rw [hcode, hroot]
    rcases hp : p.mod with _ | m
    · simp [Sound, harity, hname, hp]
    · rcases hq : q.mod with _ | m'
      · simp [Sound, harity, hname, hq]
      · have hmods : Ord.compare (modCodes (some m)) (modCodes (some m')) =
            Ord.compare m.codes m'.codes := by
          rw [modCodes, modCodes, List.compare_cons_cons, Std.compare_self, Ordering.eq_then]
        constructor
        · intro heq
          have hm := CString.codes_inj (Std.LawfulEqCmp.eq_of_compare (Option.some.inj heq))
          exact h.1 (Psc.ext hname harity (by rw [hp, hq, hm]))
        · exact iff_of_true (congrArg some hmods.symm) (fun _ _ => by rw [hp, hq]; exact ⟨rfl, rfl⟩)

theorem dotOrder_spec (p : Psc) : dotOrder p ≠ some .eq ∧
    (dotOrder p = some (Ord.compare p.rootCodes listPsc.codes) ↔ p.arity = 2 →
    p.name ≠ dotName) := by
  have hroot : Ord.compare p.rootCodes listPsc.codes =
      ((Ord.compare (p.arity : Int) 2).then (Ord.compare p.name.codes dotName.codes)).then _ :=
    codes_order _ _ _ _ _ _
  have hkey : (Ord.compare (p.arity : Int) 2).then (Ord.compare p.name.codes dotName.codes) = .eq ↔
      p.arity = 2 ∧ p.name = dotName := functor_key_eq
  rw [dotOrder]
  cases ho : (Ord.compare (p.arity : Int) 2).then (Ord.compare p.name.codes dotName.codes) with
  | eq =>
    obtain ⟨harity, hname⟩ := hkey.mp ho
    simp [harity, hname]
  | lt | gt =>
    rw [ho] at hroot
    refine ⟨by decide, iff_of_true (congrArg some hroot.symm) fun harity hname => ?_⟩
    rw [hkey.mpr ⟨harity, hname⟩] at ho
    cases ho

theorem compare_pair (k : Int) (l l' : List Int) :
    Ord.compare (k :: l) (k :: l') = Ord.compare l l' := by
  rw [List.compare_cons_cons, Std.compare_self, Ordering.eq_then]

theorem compare_single (i j : Int) : Ord.compare [i] [j] = Ord.compare i j := by
  rw [List.compare_cons_cons]
  exact Ordering.then_eq

/-- `compare` tells symbols apart, and orders them by their codes just if they are sound. -/
theorem symbolOrder_spec (h : indistinct x y = false) (hx : x.InRange)
    (hy : y.InRange) : symbolOrder x y ≠ some .eq ∧
      (symbolOrder x y = some (Ord.compare x.rootCodes y.rootCodes) ↔ Sound x y) := by
  have hother : ∀ {o : Ordering} {s : Prop}, o ≠ .eq → s → symbolOrder x y = some o →
      Ord.compare x.rootCodes y.rootCodes = o → symbolOrder x y ≠ some .eq ∧
        (symbolOrder x y = some (Ord.compare x.rootCodes y.rootCodes) ↔ s) := by
    intro o s ho hs hcode hroot
    rw [hcode, hroot]
    exact ⟨fun heq => ho (Option.some.inj heq), iff_of_true rfl hs⟩
  rcases x with (i | s | _ | p) | a <;> rcases y with (j | s' | _ | q) | b
  case inl.int.inl.int =>
    have hne : i ≠ j := by
      rintro rfl
      simp [indistinct] at h
    have hroot : Ord.compare (Token.rootCodes (.inl (.int i))) (Token.rootCodes (.inl (.int j))) =
        Ord.compare i j := (compare_pair 1 [i] [j]).trans (compare_single i j)
    rw [symbolOrder, wrapSub_order hx hy, hroot, Sound]
    split
    next hs =>
      refine ⟨fun heq ↦ hne (Std.LawfulEqCmp.eq_of_compare (Option.some.inj heq)),
        iff_of_true rfl hs⟩
    next hs =>
      refine ⟨fun heq => hne (Std.LawfulEqCmp.eq_of_compare (Option.some.inj heq)).symm, ?_⟩
      refine iff_of_false (fun heq => ?_) hs
      rcases Int.lt_trichotomy i j with hlt | heq' | hlt
      · rw [Int.compare_eq_lt.mpr hlt, Int.compare_eq_gt.mpr hlt] at heq
        cases heq
      · exact hne heq'
      · rw [Int.compare_eq_lt.mpr hlt, Int.compare_eq_gt.mpr hlt] at heq
        cases heq
  case inl.string.inl.string =>
    refine hother ?_ trivial rfl (compare_pair 2 s.codes s'.codes)
    intro heq
    rw [CString.codes_inj (Std.LawfulEqCmp.eq_of_compare heq)] at h
    simp [indistinct] at h
  case inl.list.inl.list => simp [indistinct] at h
  case inl.functor.inl.list => exact dotOrder_spec p
  case inl.functor.inl.functor => exact functorOrder_spec h
  case inl.list.inl.functor =>
    obtain ⟨hne, hiff⟩ := dotOrder_spec q
    have hswap : Ord.compare listPsc.codes q.rootCodes =
        (Ord.compare q.rootCodes listPsc.codes).swap := Std.OrientedCmp.eq_swap
    show (dotOrder q).map Ordering.swap ≠ _ ∧
      ((dotOrder q).map Ordering.swap = some (Ord.compare listPsc.codes q.rootCodes) ↔ _)
    rw [hswap, Sound, ← hiff]
    cases hdot : dotOrder q with
    | none => exact ⟨by decide, by simp⟩
    | some o =>
      rw [hdot] at hne
      constructor
      · intro heq
        cases o <;> first | exact hne rfl | cases heq
      · simp only [Option.map_some, Option.some.injEq]
        exact Ordering.swap_inj
  case inr.inr =>
    refine hother ?_ trivial rfl ((compare_pair 0 [(a : Int)] [(b : Int)]).trans
      (compare_single a b))
    intro heq
    rw [Int.ofNat.inj (Std.LawfulEqCmp.eq_of_compare heq)] at h
    simp [indistinct] at h
  all_goals exact hother (by decide) trivial rfl rfl

/-- Symbols with one code that are told apart are a list and a structure with its functor. -/
theorem symbolOrder_none (h : indistinct x y = false)
    (hroot : x.rootCodes = y.rootCodes) : symbolOrder x y = none := by
  have hdot : ∀ {p : Psc}, p.rootCodes = listPsc.codes → dotOrder p = none := by
    intro p hp
    simp only [Psc.rootCodes, Psc.codes, List.cons.injEq, true_and] at hp
    have hname := (name_codes_inj hp.2).1
    have harity : p.arity = 2 := Int.ofNat.inj hp.1
    rw [dotOrder, harity, hname]
    rfl
  rcases x with (i | s | _ | p) | a <;> rcases y with (j | s' | _ | q) | b
  case inl.functor.inl.list => exact hdot hroot
  case inl.list.inl.functor =>
    rw [symbolOrder, hdot hroot.symm]
    rfl
  case inl.functor.inl.functor =>
    have hcodes : p.rootCodes = q.rootCodes := hroot
    simp only [Psc.rootCodes, List.cons.injEq, true_and] at hcodes
    obtain ⟨hname, hmod⟩ := name_codes_inj hcodes.2
    have harity : p.arity = q.arity := Int.ofNat.inj hcodes.1
    simp only [indistinct, Bool.or_eq_false_iff, decide_eq_false_iff_not] at h
    by_cases hzero : p.arity = 0
    · simp [hname, hzero, ← harity] at h
    · rw [if_neg hzero, if_neg (harity ▸ hzero)] at hmod
      exact absurd (Psc.ext hname harity (modCodes_inj hmod)) h.1
  case inl.list.inl.list => simp [indistinct] at h
  case inl.int.inl.int =>
    cases hroot
    simp [indistinct] at h
  case inl.string.inl.string =>
    rw [CString.codes_inj (List.cons.inj hroot).2] at h
    simp [indistinct] at h
  case inr.inr =>
    cases hroot
    simp [indistinct] at h
  all_goals cases hroot

/-! ### Terms that are compared as they should be -/

/-- The integers of a term are those of machine words. -/
def InRange (t : Tuple Symbol Nat) : Prop := ∀ x ∈ t.tokens, Token.InRange x

theorem indistinct_rank {f g : Symbol} (h : indistinct (.inl f) (.inl g) = true) :
    f.rank = g.rank := by
  unfold indistinct at h
  split at h
  next p q hp hq =>
    cases hp
    cases hq
    rw [Bool.or_eq_true, decide_eq_true_eq] at h
    rcases h with rfl | h
    · rfl
    · simp only [Bool.and_eq_true, decide_eq_true_eq] at h
      exact h.1.1.trans h.1.2.symm
  next => rw [Sum.inl.inj (decide_eq_true_eq.mp h)]

/-- What follows two tuples decides just if they do not. -/
theorem decisive_append (ht : t.Ranked Symbol.rank)
    (ht' : t'.Ranked Symbol.rank) (hlen : t.length = t'.length) (l l' : List Token) :
    decisive (t.tokens ++ l) (t'.tokens ++ l') =
      (decisive t.tokens t'.tokens).or (decisive l l') := by
  induction t generalizing t' l l' with
  | nil =>
    cases t' with
    | nil => rfl
    | var b rest | app g args rest => cases hlen
  | var a rest ih =>
    cases t' with
    | nil => cases hlen
    | var b rest' =>
      simp only [Tuple.tokens, cons_append, decisive]
      split
      next =>
        have hrest : rest'.Ranked Symbol.rank := ht'
        exact ih ht hrest (Nat.succ.inj hlen) l l'
      next => rfl
    | app g args rest' => rfl
  | app f args rest ihargs ih =>
    cases t' with
    | nil => cases hlen
    | var b rest' => cases f <;> rfl
    | app g args' rest' =>
      simp only [Tuple.tokens, cons_append, append_assoc, decisive]
      split
      next h =>
        have hargs : args.length = args'.length := by
          rw [ht.1, ht'.1, indistinct_rank h]
        rw [ihargs ht.2.1 ht'.2.1 hargs, ihargs ht.2.1 ht'.2.1 hargs,
          ih ht.2.2 ht'.2.2 (Nat.succ.inj hlen), Option.or_assoc]
      next => rfl

theorem decisive_some {l l' : List Token} (h : decisive l l' = some (x, y)) :
    x ∈ l ∧ y ∈ l' ∧ indistinct x y = false ∧
      (Ord.compare x.rootCodes y.rootCodes ≠ .eq →
        Ord.compare (l.map Token.rootCodes) (l'.map Token.rootCodes) =
          Ord.compare x.rootCodes y.rootCodes) := by
  induction l generalizing l' with
  | nil => cases h
  | cons z l ih =>
    cases l' with
    | nil => cases h
    | cons z' l' =>
      rw [decisive] at h
      split at h
      next heq =>
        obtain ⟨hx, hy, hne, hcmp⟩ := ih h
        refine ⟨mem_cons_of_mem _ hx, mem_cons_of_mem _ hy, hne, fun ho => ?_⟩
        rw [map_cons, map_cons, List.compare_cons_cons, indistinct_rootCodes heq,
          Std.compare_self, Ordering.eq_then, hcmp ho]
      next hne =>
        cases h
        refine ⟨mem_cons_self, mem_cons_self, Bool.eq_false_iff.mpr hne, fun ho => ?_⟩
        rw [map_cons, map_cons, List.compare_cons_cons]
        cases hcmp : Ord.compare x.rootCodes y.rootCodes with
        | eq => exact absurd hcmp ho
        | lt | gt => rfl

theorem stdCompare_then (t t' : Tuple Symbol Nat) : stdCompare t t' =
    (Ord.compare (t.tokens.map Token.rootCodes) (t'.tokens.map Token.rootCodes)).then
      (Ord.compare (t.tokens.map Token.codes) (t'.tokens.map Token.codes)) := by
  rw [stdCompare, List.compare_cons_cons, List.compare_cons_cons]
  exact congrArg _ Ordering.then_eq

/-- The result for the symbols that follow counts if those before are not told apart. -/
def andThen : Option Ordering → Option Ordering → Option Ordering
  | some .eq, q => q
  | q, _ => q

theorem tokenOrder_append (ht : t.Ranked Symbol.rank)
    (ht' : t'.Ranked Symbol.rank) (hlen : t.length = t'.length) (hr : InRange t)
    (hr' : InRange t') (l l' : List Token) :
    tokenOrder (t.tokens ++ l) (t'.tokens ++ l') =
      andThen (tokenOrder t.tokens t'.tokens) (tokenOrder l l') := by
  rw [tokenOrder, decisive_append ht ht' hlen, tokenOrder]
  cases hdec : decisive t.tokens t'.tokens with
  | none => rfl
  | some p =>
    obtain ⟨x, y⟩ := p
    obtain ⟨hx, hy, hne, -⟩ := decisive_some hdec
    have hstop := (symbolOrder_spec hne (hr x hx) (hr' y hy)).1
    show symbolOrder x y = andThen (symbolOrder x y) _
    cases hcode : symbolOrder x y with
    | none => rfl
    | some o =>
      cases o with
      | eq => exact absurd hcode hstop
      | lt | gt => rfl

theorem tokenOrder_same (h : indistinct x y = true) (l l' : List Token) :
    tokenOrder (x :: l) (y :: l') = tokenOrder l l' := by
  rw [tokenOrder, decisive, if_pos h]
  rfl

theorem tokenOrder_distinct (h : indistinct x y = false) (l l' : List Token) :
    tokenOrder (x :: l) (y :: l') = symbolOrder x y := by
  rw [tokenOrder, decisive, if_neg (by rw [h]; decide)]

theorem indistinct_self (x : Token) : indistinct x x = true := by
  unfold indistinct
  split <;> simp

theorem tokenOrder_self (l : List Token) : tokenOrder l l = some .eq := by
  induction l with
  | nil => rfl
  | cons x l ih => rw [tokenOrder_same (indistinct_self x), ih]

/-- The result is the standard order just if the terms are decided. -/
theorem tokenOrder_iff (ht : IsTerm t) (ht' : IsTerm t')
    (hr : InRange t) (hr' : InRange t') :
    tokenOrder t.tokens t'.tokens = some (stdCompare t t') ↔ Decided t t' := by
  rw [tokenOrder, Decided]
  cases hdec : decisive t.tokens t'.tokens with
  | none =>
    show some Ordering.eq = some (stdCompare t t') ↔ _
    rw [← stdCompare_eq_iff ht ht', Option.some.injEq]
    exact eq_comm
  | some p =>
    obtain ⟨x, y⟩ := p
    obtain ⟨hx, hy, hne, hcmp⟩ := decisive_some hdec
    obtain ⟨hstop, hiff⟩ := symbolOrder_spec hne (hr x hx) (hr' y hy)
    show symbolOrder x y = some (stdCompare t t') ↔ Sound x y
    rw [← hiff]
    by_cases ho : Ord.compare x.rootCodes y.rootCodes = .eq
    · have hnone := symbolOrder_none hne (Std.LawfulEqCmp.eq_of_compare ho)
      rw [hnone]
      exact iff_of_false (by simp) (by simp)
    · have hstd : stdCompare t t' = Ord.compare x.rootCodes y.rootCodes := by
        rw [stdCompare_then, hcmp ho]
        cases hc : Ord.compare x.rootCodes y.rootCodes with
        | eq => exact absurd hc ho
        | lt | gt => rfl
      rw [hstd]

end XSBEngine.Heap
