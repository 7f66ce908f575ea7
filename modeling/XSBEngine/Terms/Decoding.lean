import XSBEngine.Terms.Codes

/-!
# Decoding the variables of a path

What `macro_make_heap_term`, `XSB/emu/tries.c:692–824`, makes of the variable symbols of a path.
It masks a variable number to 16 bits, and takes bits 16 and 17 of the symbol for a first
occurrence and for an attributed variable. The encoder does not bound the numbers, so from
`0x10000` variables on a later occurrence can be taken for something else.
-/

namespace XSBEngine.Terms

open Function List PrefixTerms XSBEngine.Tries

/-! ### The variables that are made -/

/-- The variables at the places of a path, each by its number among those that are made, as
`BINDING_ARRAY` tells. There is no answer where an attributed variable is read. -/
def decode : (Nat → Option Nat) → Nat → List Symbol → Option (List (Symbol ⊕ Nat))
  | _, _, [] => some []
  | bind, k, f :: l =>
    if f.tag = .trieVar then
      if isNewTrieVar f then
        (decode (update bind (decodeTrieVar f) (some k)) (k + 1) l).map (.inr k :: ·)
      else if isNewTrieAttv f then none
      else
        match bind (decodeTrieVar f) with
        | none => none
        | some j => (decode bind k l).map (.inr j :: ·)
    else (decode bind k l).map (.inl f :: ·)

/-- A later occurrence of variable `i` is read as that variable when `n` variables have been
numbered. -/
def Legible (i n : Nat) : Prop := i % 0x40000 < 0x10000 ∧ n ≤ i + 0x10000

/-- `BINDING_ARRAY` holds the last variable with each masked number. -/
def Bindings (bind : Nat → Option Nat) (n : Nat) : Prop :=
  ∀ i j, bind i = some j ↔ j < n ∧ j % 0x10000 = i ∧ n ≤ j + 0x10000

namespace Numbering

variable {F V : Type*} [DecidableEq V]

/-- Every variable has one number, and its later occurrences are legible. -/
def Resolves (g : Numbering V) : List (F ⊕ V) → Prop
  | [] => True
  | .inl _ :: l => g.Resolves l
  | .inr v :: l =>
    (if g.Known v then Legible (indexIn g.seen (v, g.epoch)) g.seen.length
      else ∀ e, (v, e) ∉ g.seen) ∧ (g.next v).Resolves l

theorem Resolves.append {g : Numbering V} {l l' : List (F ⊕ V)} (h : g.Resolves (l ++ l')) :
    (g.after l).Resolves l' := by
  induction l generalizing g with
  | nil => exact h
  | cons x l ih =>
    cases x with
    | inl f => exact ih h
    | inr v => exact ih h.2

/-- The names of the numbered variables. -/
def names (g : Numbering V) : List V := g.seen.map Prod.fst

variable {g : Numbering V} {l : List (F ⊕ V)} {v : V} {e e' : Nat}

omit [DecidableEq V] in
theorem names_nodup_iff (hwf : g.WF) :
    g.names.Nodup ↔ ∀ v e e', (v, e) ∈ g.seen → (v, e') ∈ g.seen → e = e' := by
  constructor
  · intro h v e e' he he'
    exact (Prod.mk.inj (inj_on_of_nodup_map h he he' rfl)).2
  · intro h
    apply List.Nodup.map_on _ hwf.nodup
    rintro ⟨v, e⟩ he ⟨v', e'⟩ he' rfl
    rw [h v e e' he he']

theorem indexIn_cons_self {W : Type*} [DecidableEq W] (x : W) (l : List W) :
    indexIn (x :: l) x = 0 := idxOf_cons_self

theorem indexIn_cons_ne {W : Type*} [DecidableEq W] {x y : W} (h : y ≠ x) (l : List W) :
    indexIn (y :: l) x = indexIn l x + 1 := idxOf_cons_ne l h

/-- A variable with one number has the number of its name. -/
theorem indexIn_names (hn : g.names.Nodup) (h : (v, e) ∈ g.seen) :
    indexIn g.names v = indexIn g.seen (v, e) := by
  rw [names] at hn ⊢
  generalize g.seen = seen at h hn ⊢
  induction seen with
  | nil => exact absurd h not_mem_nil
  | cons p seen ih =>
    rw [map_cons, nodup_cons] at hn
    by_cases hp : p = (v, e)
    · rw [hp, map_cons, indexIn_cons_self, indexIn_cons_self]
    · have hmem : (v, e) ∈ seen := (mem_cons.mp h).resolve_left (Ne.symm hp)
      have hne : p.1 ≠ v := fun he => hn.1 (mem_map.mpr ⟨_, hmem, he.symm⟩)
      rw [map_cons, indexIn_cons_ne hp, indexIn_cons_ne hne, ih hmem hn.2]

theorem WF.next_names (hwf : g.WF) (hv : ¬g.Known v) :
    ∃ e, (v, e) ∉ g.seen ∧ (g.next v).seen = g.seen ++ [(v, e)] := by
  have hnew : (v, (g.next v).epoch) ∉ g.seen := by
    by_cases hlt : g.seen.length < g.size
    · rw [next_of_fits hv hlt]
      exact hv
    · rw [next_of_full hv hlt]
      exact hwf.later_not_mem v
  exact ⟨_, hnew, by rw [hwf.next_seen, see_of_not_mem hnew]⟩

end Numbering

/-! ### One symbol -/

theorem isNewTrieVar_iff (f : Symbol) : isNewTrieVar f = f.val.testBit 16 := by
  rw [isNewTrieVar, show newTrieVarTag = 2 ^ 16 from rfl, Nat.and_two_pow]
  cases f.val.testBit 16 <;> rfl

theorem decodeTrieVar_eq (f : Symbol) : decodeTrieVar f = f.val % 0x10000 :=
  Nat.and_two_pow_sub_one_eq_mod f.val 16

theorem isNewTrieVar_encodeNew (n : Nat) : isNewTrieVar (encodeNewTrieVar n) = true := by
  rw [isNewTrieVar_iff, encodeNewTrieVar, Nat.testBit_or, Bool.or_eq_true]
  right
  decide

theorem decodeTrieVar_encodeNew (n : Nat) :
    decodeTrieVar (encodeNewTrieVar n) = n % 0x10000 := by
  rw [decodeTrieVar_eq, encodeNewTrieVar]
  show (n ||| 2 ^ 16) % 2 ^ 16 = n % 2 ^ 16
  rw [Nat.or_mod_two_pow, Nat.mod_self, Nat.or_zero]

/-- Bits 16 and 17 of a variable number are clear just if it is legible at its number. -/
theorem clear_iff (i : Nat) :
    isNewTrieVar (encodeTrieVar i) = false ∧ isNewTrieAttv (encodeTrieVar i) = false ↔
      i % 0x40000 < 0x10000 := by
  rw [isNewTrieVar_iff, isNewTrieAttv_iff, encodeTrieVar]
  simp only [Nat.testBit_eq_decide_div_mod_eq, decide_eq_false_iff_not]
  omega

theorem Bindings.start : Bindings (fun _ => none) 0 := by
  intro i j
  simp

theorem Bindings.next {bind : Nat → Option Nat} {n : Nat} (h : Bindings bind n) :
    Bindings (update bind (n % 0x10000) (some n)) (n + 1) := by
  intro i j
  by_cases hi : i = n % 0x10000
  · rw [hi, update_self, Option.some.injEq]
    omega
  · rw [update_of_ne hi, h i j]
    omega

/-! ### Paths -/

variable {g : Numbering Addr} {l : List (Symbol ⊕ Addr)} {bind : Nat → Option Nat} {n k : Nat}

theorem decode_new (n : Nat) (l : List Symbol) :
    decode bind k (encodeNewTrieVar n :: l) =
      (decode (update bind (n % 0x10000) (some k)) (k + 1) l).map (.inr k :: ·) := by
  have htag : (encodeNewTrieVar n).tag = .trieVar := rfl
  rw [decode, if_pos htag, if_pos (isNewTrieVar_encodeNew n), decodeTrieVar_encodeNew]

/-- When a later occurrence is read as its variable. -/
theorem decode_later {i : Nat} (hi : i < k) (l : List Symbol) (toks : List (Symbol ⊕ Nat)) :
    decode bind k (encodeTrieVar i :: l) = some (.inr i :: toks) ↔
      i % 0x40000 < 0x10000 ∧ bind (i % 0x10000) = some i ∧ decode bind k l = some toks := by
  have hidx : decodeTrieVar (encodeTrieVar i) = i % 0x10000 := decodeTrieVar_eq _
  have htag : (encodeTrieVar i).tag = .trieVar := rfl
  rw [decode, if_pos htag, hidx, ← clear_iff]
  cases hnew : isNewTrieVar (encodeTrieVar i) with
  | true =>
    simp only [if_true, Option.map_eq_some_iff, List.cons.injEq, Sum.inr.injEq, Bool.true_eq_false,
      false_and, iff_false, not_exists, not_and]
    omega
  | false =>
    cases hattv : isNewTrieAttv (encodeTrieVar i) with
    | true => simp
    | false =>
      cases hb : bind (i % 0x10000) with
      | none => simp
      | some j =>
        simp only [Bool.false_eq_true, if_false, Option.map_eq_some_iff, List.cons.injEq,
          Sum.inr.injEq, true_and, Option.some.injEq]
        constructor
        · rintro ⟨toks', h, rfl, rfl⟩
          exact ⟨rfl, h⟩
        · rintro ⟨rfl, h⟩
          exact ⟨toks, h, rfl, rfl⟩

theorem decode_symbol {f : Symbol} (hf : f.tag ≠ .trieVar) (l : List Symbol) :
    decode bind k (f :: l) = (decode bind k l).map (.inl f :: ·) := by
  rw [decode, if_neg hf]

/-- `BINDING_ARRAY` and the number of variables made, after a path has been read. -/
def decodeState : (Nat → Option Nat) → Nat → List Symbol → (Nat → Option Nat) × Nat
  | bind, k, [] => (bind, k)
  | bind, k, f :: l =>
    if f.tag = .trieVar ∧ isNewTrieVar f = true then
      decodeState (update bind (decodeTrieVar f) (some k)) (k + 1) l
    else decodeState bind k l

/-- Every later occurrence is one of a number that has been met. -/
def Grounded : (Nat → Option Nat) → List Symbol → Prop
  | _, [] => True
  | bind, f :: l =>
    if f.tag = .trieVar then
      if isNewTrieVar f then ∀ j, Grounded (update bind (decodeTrieVar f) (some j)) l
      else (isNewTrieAttv f = false → bind (decodeTrieVar f) ≠ none) ∧ Grounded bind l
    else Grounded bind l

theorem decodeState_append (l l' : List Symbol) : decodeState bind k (l ++ l') =
    decodeState (decodeState bind k l).1 (decodeState bind k l).2 l' := by
  induction l generalizing bind k with
  | nil => rfl
  | cons f l ih =>
    simp only [cons_append, decodeState]
    split
    · exact ih
    · exact ih

theorem decode_append (l l' : List Symbol) : decode bind k (l ++ l') =
    (decode bind k l).bind fun toks =>
      (decode (decodeState bind k l).1 (decodeState bind k l).2 l').map (toks ++ ·) := by
  induction l generalizing bind k with
  | nil => simp [decode, decodeState]
  | cons f l ih =>
    have hcons : ∀ (x : Symbol ⊕ Nat) (o : Option (List (Symbol ⊕ Nat)))
        (o' : List (Symbol ⊕ Nat) → Option (List (Symbol ⊕ Nat))),
        (∀ toks, o' (x :: toks) = (o' toks).map (x :: ·)) →
        (o.bind o').map (x :: ·) = (o.map (x :: ·)).bind o' := by
      intro x o o' ho
      cases o with
      | none => rfl
      | some toks => exact (ho toks).symm
    have hmap : ∀ (x : Symbol ⊕ Nat) (o : Option (List (Symbol ⊕ Nat))) toks,
        o.map (x :: toks ++ ·) = (o.map (toks ++ ·)).map (x :: ·) := by
      intro x o toks
      cases o <;> rfl
    simp only [cons_append, decode, decodeState]
    by_cases htag : f.tag = .trieVar
    · rw [if_pos htag, if_pos htag]
      by_cases hnew : isNewTrieVar f = true
      · rw [if_pos hnew, if_pos hnew, if_pos ⟨htag, hnew⟩, ih]
        exact hcons _ _ _ fun toks => hmap _ _ toks
      · have hold : ¬(f.tag = .trieVar ∧ isNewTrieVar f = true) := fun h => hnew h.2
        rw [if_neg hnew, if_neg hnew, if_neg hold]
        cases isNewTrieAttv f with
        | true => rfl
        | false =>
          cases bind (decodeTrieVar f) with
          | none => rfl
          | some j =>
            simp only [Bool.false_eq_true, if_false]
            rw [ih]
            exact hcons _ _ _ fun toks => hmap _ _ toks
    · have hother : ¬(f.tag = .trieVar ∧ isNewTrieVar f = true) := fun h => htag h.1
      rw [if_neg htag, if_neg htag, if_neg hother, ih]
      exact hcons _ _ _ fun toks => hmap _ _ toks

theorem Grounded.append {l l' : List Symbol} (h : Grounded bind (l ++ l')) :
    Grounded bind l ∧ ∀ k, Grounded (decodeState bind k l).1 l' := by
  induction l generalizing bind with
  | nil => exact ⟨trivial, fun _ => h⟩
  | cons f l ih =>
    simp only [cons_append, Grounded, decodeState] at h ⊢
    by_cases htag : f.tag = .trieVar
    · rw [if_pos htag] at h ⊢
      by_cases hnew : isNewTrieVar f = true
      · rw [if_pos hnew] at h ⊢
        refine ⟨fun j => (ih (h j)).1, fun k => ?_⟩
        rw [if_pos ⟨htag, hnew⟩]
        exact (ih (h k)).2 _
      · rw [if_neg hnew] at h ⊢
        refine ⟨⟨h.1, (ih h.2).1⟩, fun k => ?_⟩
        have hold : ¬(f.tag = .trieVar ∧ isNewTrieVar f = true) := fun hc => hnew hc.2
        rw [if_neg hold]
        exact (ih h.2).2 k
    · rw [if_neg htag] at h ⊢
      refine ⟨(ih h).1, fun k => ?_⟩
      have hother : ¬(f.tag = .trieVar ∧ isNewTrieVar f = true) := fun hc => htag hc.1
      rw [if_neg hother]
      exact (ih h).2 k

/-- The encoder gives a number first to a variable that it meets first. -/
theorem Numbering.symbols_grounded (hwf : g.WF)
    (hb : ∀ i < g.seen.length, bind (i % 0x10000) ≠ none)
    (hl : ∀ f, .inl f ∈ l → f.tag ≠ .trieVar) : Grounded bind (g.symbols l) := by
  induction l generalizing g bind with
  | nil => trivial
  | cons x l ih =>
    have hl' : ∀ f, .inl f ∈ l → f.tag ≠ .trieVar := fun f hf => hl f (mem_cons_of_mem _ hf)
    have hup : ∀ i j, (∀ i < g.seen.length, bind (i % 0x10000) ≠ none) →
        ∀ i' < g.seen.length, update bind i (some j) (i' % 0x10000) ≠ none := by
      intro i j hb i' hi'
      by_cases he : i' % 0x10000 = i
      · rw [he, update_self]
        exact Option.some_ne_none _
      · rw [update_of_ne he]
        exact hb i' hi'
    cases x with
    | inl f =>
      rw [Numbering.symbols, Grounded, if_neg (hl f mem_cons_self)]
      exact ih hwf hb hl'
    | inr v =>
      rw [Numbering.symbols, Grounded, if_pos (g.symbol_tag v)]
      by_cases hk : g.Known v
      · have hlt := indexIn_lt hk
        rw [Numbering.next_of_known hk, Numbering.symbol, if_pos hk, decodeTrieVar_eq]
        split
        · exact fun j => ih hwf (hup _ j hb) hl'
        · exact ⟨fun _ => hb _ hlt, ih hwf hb hl'⟩
      · obtain ⟨e, -, hnext⟩ := hwf.next_names hk
        rw [Numbering.symbol, if_neg hk, if_pos (isNewTrieVar_encodeNew _), decodeTrieVar_encodeNew]
        intro j
        apply ih (hwf.next v) _ hl'
        intro i hi
        rw [hnext, length_append, length_singleton] at hi
        by_cases he : i = g.seen.length
        · rw [he, update_self]
          exact Option.some_ne_none _
        · exact hup _ j hb i (by omega)

/-- Where every later occurrence is legible, variables are read by the numbers of their names. -/
theorem Numbering.Resolves.decode (h : g.Resolves l) (hwf : g.WF) (hn : g.names.Nodup)
    (hb : Bindings bind g.seen.length) (hl : ∀ f, .inl f ∈ l → f.tag ≠ .trieVar) :
    (g.after l).names.Nodup ∧ decode bind g.seen.length (g.symbols l) =
      some (l.map (Sum.map id (indexIn (g.after l).names))) := by
  induction l generalizing g bind with
  | nil => exact ⟨hn, rfl⟩
  | cons x l ih =>
    have hl' : ∀ f, .inl f ∈ l → f.tag ≠ .trieVar := fun f hf => hl f (mem_cons_of_mem _ hf)
    cases x with
    | inl f =>
      obtain ⟨hnodup, hdec⟩ := ih h hwf hn hb hl'
      refine ⟨hnodup, ?_⟩
      rw [Numbering.symbols, decode_symbol (hl f mem_cons_self), hdec]
      rfl
    | inr v =>
      obtain ⟨hv, hres⟩ := h
      have hpre : ∀ g' : Numbering Addr, g'.WF → g'.names <+: (g'.after l).names := by
        intro g' hg'
        rw [Numbering.names, Numbering.names, hg'.after_seen]
        exact (prefix_seenAfter _ _).map Prod.fst
      by_cases hk : g.Known v
      · rw [if_pos hk] at hv
        have hnext := Numbering.next_of_known hk
        rw [hnext] at hres
        obtain ⟨hnodup, hdec⟩ := ih hres hwf hn hb hl'
        have hlt := indexIn_lt hk
        have hidx : indexIn (g.after l).names v = indexIn g.seen (v, g.epoch) := by
          rw [← indexIn_names hn hk]
          exact indexIn_of_prefix (hpre g hwf) (mem_map_of_mem (f := Prod.fst) hk)
        rw [Numbering.after, hnext, Numbering.symbols, hnext, Numbering.symbol, if_pos hk]
        refine ⟨hnodup, ?_⟩
        have hbind : bind (indexIn g.seen (v, g.epoch) % 0x10000) =
            some (indexIn g.seen (v, g.epoch)) := (hb _ _).mpr ⟨hlt, rfl, hv.2⟩
        rw [map_cons, Sum.map_inr, hidx]
        exact (decode_later hlt _ _).mpr ⟨hv.1, hbind, hdec⟩
      · rw [if_neg hk] at hv
        obtain ⟨e, hnew, hnext⟩ := hwf.next_names hk
        have hvn : v ∉ g.names := by
          intro hm
          obtain ⟨⟨v', e'⟩, hm', rfl⟩ := mem_map.mp hm
          exact hv e' hm'
        have hnames : (g.next v).names = g.names ++ [v] := by
          rw [Numbering.names, hnext, map_append]
          rfl
        have hlen : (g.next v).seen.length = g.seen.length + 1 := by
          rw [hnext, length_append, length_singleton]
        have hn' : (g.next v).names.Nodup := by
          rw [hnames, nodup_append_comm]
          exact nodup_cons.mpr ⟨hvn, hn⟩
        obtain ⟨hnodup, hdec⟩ := ih hres (hwf.next v) hn' (hlen ▸ hb.next) hl'
        have hidx : indexIn ((g.next v).after l).names v = g.seen.length := by
          have hmem : v ∈ (g.next v).names := by
            rw [hnames]
            exact mem_append_right _ mem_cons_self
          rw [ indexIn_of_prefix (hpre _ (hwf.next v)) hmem, hnames, indexIn_append_self hvn,
            Numbering.names, length_map]
        rw [Numbering.after, Numbering.symbols, Numbering.symbol, if_neg hk, decode_new]
        refine ⟨hnodup, ?_⟩
        rw [← hlen, hdec, map_cons, Sum.map_inr, hidx]
        rfl

/-- A reading that is consistent with the variables has legible occurrences only. -/
theorem Numbering.resolves_of_decode {τ : Addr → Nat} (hwf : g.WF)
    (hτ : ∀ v e, (v, e) ∈ g.seen → τ v = indexIn g.seen (v, e))
    (hb : Bindings bind g.seen.length) (hl : ∀ f, .inl f ∈ l → f.tag ≠ .trieVar)
    (h : Terms.decode bind g.seen.length (g.symbols l) = some (l.map (Sum.map id τ))) :
    g.Resolves l := by
  induction l generalizing g bind with
  | nil => trivial
  | cons x l ih =>
    have hl' : ∀ f, .inl f ∈ l → f.tag ≠ .trieVar := fun f hf => hl f (mem_cons_of_mem _ hf)
    cases x with
    | inl f =>
      rw [Numbering.symbols, decode_symbol (hl f mem_cons_self)] at h
      obtain ⟨toks, htoks, he⟩ := Option.map_eq_some_iff.mp h
      rw [(List.cons.inj he).2] at htoks
      exact ih hwf hτ hb hl' htoks
    | inr v =>
      by_cases hk : g.Known v
      · have hnext := Numbering.next_of_known hk
        have hlt := indexIn_lt hk
        rw [Numbering.symbols, hnext, Numbering.symbol, if_pos hk, map_cons, Sum.map_inr,
          hτ v g.epoch hk, decode_later hlt] at h
        obtain ⟨hclear, hbind, hdec⟩ := h
        refine ⟨?_, ?_⟩
        · rw [if_pos hk]
          exact ⟨hclear, ((hb _ _).mp hbind).2.2⟩
        · rw [hnext]
          exact ih hwf hτ hb hl' hdec
      · rw [Numbering.symbols, Numbering.symbol, if_neg hk, decode_new] at h
        obtain ⟨toks, htoks, he⟩ := Option.map_eq_some_iff.mp h
        obtain ⟨hvτ, htl⟩ := List.cons.inj he
        have hvτ : τ v = g.seen.length := (Sum.inr.inj hvτ).symm
        have hv : ∀ e, (v, e) ∉ g.seen := by
          intro e hm
          have hlt := indexIn_lt hm
          rw [← hτ v e hm, hvτ] at hlt
          exact lt_irrefl _ hlt
        obtain ⟨e, hnew, hnext⟩ := hwf.next_names hk
        have hlen : (g.next v).seen.length = g.seen.length + 1 := by
          rw [hnext, length_append, length_singleton]
        refine ⟨by rw [if_neg hk]; exact hv, ih (hwf.next v) ?_ (hlen ▸ hb.next) hl' ?_⟩
        · intro v' e' hm
          rw [hnext] at hm ⊢
          rcases mem_append.mp hm with hm | hm
          · rw [indexIn_append_of_mem hm]
            exact hτ v' e' hm
          · cases mem_singleton.mp hm
            rw [indexIn_append_self hnew]
            exact hvτ
        · rw [hlen, ← htl]
          exact htoks

/-- The variables of a term are read back as they were just if every later occurrence is
legible. -/
theorem decode_variant_iff {size : Nat} (hpos : 0 < size)
    (hl : ∀ f, .inl f ∈ l → f.tag ≠ .trieVar) :
    (∃ toks, decode (fun _ => none) 0 ((Numbering.start size).symbols l) = some toks ∧
      TokenVariant toks l) ↔ (Numbering.start size : Numbering Addr).Resolves l := by
  have hwf : (Numbering.start size : Numbering Addr).WF := Numbering.start_wf hpos
  constructor
  · rintro ⟨toks, hdec, σ, τ, -, hτ⟩
    rw [← hτ] at hdec
    exact Numbering.resolves_of_decode hwf (fun v e hm => absurd hm not_mem_nil)
      Bindings.start hl hdec
  · intro h
    obtain ⟨hnodup, hdec⟩ := h.decode hwf nodup_nil Bindings.start hl
    refine ⟨_, hdec, fun i => ((Numbering.start size).after l).names.getD i default, _, ?_, rfl⟩
    rw [map_map, map_eq_self_iff]
    intro x hx
    cases x with
    | inl f => rfl
    | inr v =>
      have hmem : v ∈ ((Numbering.start size : Numbering Addr).after l).names := by
        rw [← Numbering.split_fst (Numbering.start size) l] at hx
        obtain ⟨y, hy, hyv⟩ := mem_map.mp hx
        cases y with
        | inl f => cases hyv
        | inr p =>
          cases hyv
          rw [Numbering.names, hwf.after_seen]
          exact mem_map_of_mem (mem_seenAfter _ hy)
      have hlt := indexIn_lt hmem
      simp only [Sum.map_inr, comp_apply]
      rw [getD_eq_getElem _ _ hlt]
      exact congrArg Sum.inr (getElem_idxOf hlt)

theorem Numbering.Resolves.not_recurs {size : Nat} (hpos : 0 < size)
    (h : (Numbering.start size : Numbering Addr).Resolves l)
    (hl : ∀ f, .inl f ∈ l → f.tag ≠ .trieVar) :
    ¬(Numbering.start size : Numbering Addr).Recurs l := by
  rintro ⟨v, e, e', hne, he, he'⟩
  have hwf : (Numbering.start size : Numbering Addr).WF := Numbering.start_wf hpos
  obtain ⟨hnodup, -⟩ := h.decode hwf nodup_nil Bindings.start hl
  have hseen : ∀ p, .inr p ∈ (Numbering.start size).split l →
      p ∈ ((Numbering.start size : Numbering Addr).after l).seen := by
    intro p hp
    rw [hwf.after_seen]
    exact mem_seenAfter _ hp
  exact hne ((Numbering.names_nodup_iff (hwf.after l)).mp hnodup v e e' (hseen _ he) (hseen _ he'))

end XSBEngine.Terms
