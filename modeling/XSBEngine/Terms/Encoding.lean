import XSBEngine.Terms.Standardize

/-!
# Symbols of terms

The symbols that a walker produces for a term, and when two terms have the same ones.
-/

namespace XSBEngine.Terms

open PrefixTerms XSBEngine.Tries

/-- The symbols for a notation. -/
def Numbering.symbols (g : Numbering Addr) : List (Symbol ⊕ Addr) → List Symbol
  | [] => []
  | .inl f :: l => f :: g.symbols l
  | .inr a :: l => g.symbol a :: (g.next a).symbols l

theorem Numbering.symbols_append (g : Numbering Addr) (l l' : List (Symbol ⊕ Addr)) :
    g.symbols (l ++ l') = g.symbols l ++ (g.after l).symbols l' := by
  induction l generalizing g with
  | nil => rfl
  | cons x l ih =>
    cases x with
    | inl f => exact congrArg (f :: ·) (ih g)
    | inr a => exact congrArg (_ :: ·) (ih (g.next a))

theorem encodeTrieVar_ne_new {i n : Nat} (h : i < n) : encodeTrieVar i ≠ encodeNewTrieVar n := by
  intro he
  have hval : i = n ||| newTrieVarTag := congrArg Symbol.val he
  have hle : n ≤ n ||| newTrieVarTag := Nat.left_le_or
  omega

theorem Numbering.symbol_tag (g : Numbering Addr) (a : Addr) : (g.symbol a).tag = .trieVar := by
  unfold Numbering.symbol
  split <;> rfl

/-- The symbol of a variable tells its number. -/
theorem Numbering.symbol_eq_iff {g g' : Numbering Addr} (h : g.WF) (h' : g'.WF)
    (hlen : g.seen.length = g'.seen.length) (a a' : Addr) :
    g.symbol a = g'.symbol a' ↔
      indexIn (g.next a).seen (a, (g.next a).epoch) =
        indexIn (g'.next a').seen (a', (g'.next a').epoch) := by
  have index : ∀ (g : Numbering Addr), g.WF → ∀ a,
      (g.Known a ∧ indexIn (g.next a).seen (a, (g.next a).epoch) < g.seen.length ∧
        g.symbol a = encodeTrieVar (indexIn (g.next a).seen (a, (g.next a).epoch))) ∨
      (indexIn (g.next a).seen (a, (g.next a).epoch) = g.seen.length ∧
        g.symbol a = encodeNewTrieVar g.seen.length) := by
    intro g hg a
    by_cases hk : g.Known a
    · left
      rw [Numbering.next_of_known hk, Numbering.symbol, if_pos hk]
      exact ⟨hk, indexIn_lt hk, rfl⟩
    · right
      rw [Numbering.symbol, if_neg hk, hg.next_seen]
      refine ⟨?_, rfl⟩
      have hnew : (a, (g.next a).epoch) ∉ g.seen := by
        by_cases hlt : g.seen.length < g.size
        · rw [Numbering.next_of_fits hk hlt]
          exact hk
        · rw [Numbering.next_of_full hk hlt]
          exact hg.later_not_mem a
      rw [see_of_not_mem hnew, indexIn_append_self hnew]
  rcases index g h a with ⟨-, hlt, hs⟩ | ⟨hi, hs⟩
  · rcases index g' h' a' with ⟨-, hlt', hs'⟩ | ⟨hi', hs'⟩
    · rw [hs, hs']
      exact ⟨fun he => congrArg Symbol.val he, fun he => congrArg encodeTrieVar he⟩
    · rw [hs, hs', hi']
      refine iff_of_false (encodeTrieVar_ne_new (by omega)) (by omega)
  · rcases index g' h' a' with ⟨-, hlt', hs'⟩ | ⟨hi', hs'⟩
    · rw [hs, hs', hi]
      refine iff_of_false (fun he => encodeTrieVar_ne_new (by omega) he.symm) (by omega)
    · rw [hs, hs', hi, hi', hlen]
      exact iff_of_true rfl rfl

/-- Symbols tell the numbers of all variables. -/
theorem Numbering.symbols_eq_iff {g g' : Numbering Addr} (h : g.WF) (h' : g'.WF)
    (hlen : g.seen.length = g'.seen.length) {l l' : List (Symbol ⊕ Addr)}
    (hl : ∀ f, .inl f ∈ l → f.tag ≠ .trieVar) (hl' : ∀ f, .inl f ∈ l' → f.tag ≠ .trieVar) :
    g.symbols l = g'.symbols l' ↔
      numberFrom g.seen (g.split l) = numberFrom g'.seen (g'.split l') := by
  induction l generalizing g g' l' with
  | nil =>
    cases l' with
    | nil => simp [Numbering.symbols, Numbering.split, numberFrom]
    | cons y l' => cases y <;> simp [Numbering.symbols, Numbering.split, numberFrom]
  | cons x l ih =>
    have hrest : ∀ f, .inl f ∈ l → f.tag ≠ .trieVar := fun f hf => hl f (List.mem_cons_of_mem _ hf)
    cases l' with
    | nil => cases x <;> simp [Numbering.symbols, Numbering.split, numberFrom]
    | cons y l' =>
      have hrest' : ∀ f, .inl f ∈ l' → f.tag ≠ .trieVar :=
        fun f hf => hl' f (List.mem_cons_of_mem _ hf)
      cases x with
      | inl f =>
        cases y with
        | inl f' =>
          simp only [Numbering.symbols, Numbering.split, numberFrom, List.cons.injEq,
            Sum.inl.injEq]
          rw [ih h h' hlen hrest hrest']
        | inr a' =>
          simp only [Numbering.symbols, Numbering.split, numberFrom, List.cons.injEq,
            reduceCtorEq, false_and, iff_false, not_and]
          intro he
          exact absurd (he ▸ g'.symbol_tag a') (hl f List.mem_cons_self)
      | inr a =>
        cases y with
        | inl f' =>
          simp only [Numbering.symbols, Numbering.split, numberFrom, List.cons.injEq,
            reduceCtorEq, false_and, iff_false, not_and]
          intro he
          exact absurd (he ▸ g.symbol_tag a) (hl' f' List.mem_cons_self)
        | inr a' =>
          simp only [Numbering.symbols, Numbering.split, numberFrom, List.cons.injEq,
            Sum.inr.injEq]
          rw [Numbering.symbol_eq_iff h h' hlen, ← h.next_seen, ← h'.next_seen]
          constructor
          · rintro ⟨hi, hs⟩
            refine ⟨hi, (ih (h.next a) (h'.next a') ?_ hrest hrest').mp hs⟩
            rw [h.next_seen, h'.next_seen, length_see, length_see, ← h.next_seen,
              ← h'.next_seen, hlen, hi]
          · rintro ⟨hi, hs⟩
            refine ⟨hi, (ih (h.next a) (h'.next a') ?_ hrest hrest').mpr hs⟩
            rw [h.next_seen, h'.next_seen, length_see, length_see, ← h.next_seen,
              ← h'.next_seen, hlen, hi]

/-- A later term has the symbols of an earlier one exactly when it is a variant of the earlier
term with its variables split. -/
theorem symbols_eq_iff_variant {size size' : Nat} (hpos : 0 < size) (hpos' : 0 < size')
    {arity : Nat → Nat} {t t' : Tuple Symbol Addr} (ht : t.Ranked (rank arity))
    (ht' : t'.Ranked (rank arity)) (hlen : t.length = t'.length)
    (hl : ∀ f, .inl f ∈ t.tokens → f.tag ≠ .trieVar)
    (hl' : ∀ f, .inl f ∈ t'.tokens → f.tag ≠ .trieVar)
    (hsize : ((Numbering.start size).after t.tokens).size ≤ size') :
    (Numbering.start size).symbols t.tokens = (Numbering.start size').symbols t'.tokens ↔
      Variant ((Numbering.start size).splitTuple t).1 t' := by
  have hg : (Numbering.start size : Numbering Addr).WF := Numbering.start_wf hpos
  have hg' : (Numbering.start size' : Numbering Addr).WF := Numbering.start_wf hpos'
  rw [variant_iff (Numbering.ranked_splitTuple _ ht) ht'
      ((Numbering.length_splitTuple _ t).trans hlen),
    (Numbering.splitTuple_tokens _ t).1, Numbering.symbols_eq_iff hg hg' rfl hl hl',
    ← Numbering.numberFrom_split_eq_iff hg hg' rfl rfl hsize]
  rfl

end XSBEngine.Terms
