import Mathlib
import XSBEngine.Library.Numbering
import XSBEngine.Setof.Variant

/-!
# Solutions of `bagof/3`

`bagof1`, with `pick`, `parade` and `decide`, `XSB/syslib/setof.P:58–102`.
-/

namespace XSBEngine.Setof

open List PrefixTerms

variable {F : Type*} {n : Nat}

/-- `Key-Template`, where the key is `'$'` with the instances of `n` free variables. -/
structure Answer (F : Type*) (n : Nat) where
  key : Tuple F Nat
  template : Tuple F Nat
  length_key : key.length = n

namespace Answer

def vars (a : Answer F n) : List Nat := a.key.vars ++ a.template.vars

def tokens (a : Answer F n) : List (F ⊕ Nat) := a.key.tokens ++ a.template.tokens

def rename (ρ : Nat → Nat) (a : Answer F n) : Answer F n where
  key := a.key.rename ρ
  template := a.template.rename ρ
  length_key := (Tuple.length_rename ρ a.key).trans a.length_key

end Answer

/-- `bfindall`. The answers are copied to the heap one after the other, each with new variables. -/
def bfindall : Nat → List (Answer F n) → List (Answer F n)
  | _, [] => []
  | hreg, a :: answers =>
    a.rename (fun v => hreg + indexIn (seenAfter [] a.tokens) v) ::
      bfindall (hreg + (seenAfter [] a.tokens).length) answers

/-- Terms as sequences of symbols, each with its number of arguments, and of variables. -/
def codes : Tuple F Nat → List (ℕ ⊕ₗ (ℕ ×ₗ F))
  | .nil => []
  | .var v rest => toLex (.inl v) :: codes rest
  | .app f args rest => toLex (.inr (toLex (args.length, f))) :: (codes args ++ codes rest)

/-- A solution: the answers that were joined, the first one first, and the bindings. -/
structure Solution (F : Type*) (n : Nat) where
  head : Answer F n
  answers : List (Answer F n)
  bindings : Bindings F

namespace Solution

/-- The values of the free variables. -/
def key (s : Solution F n) : Tuple F Nat := subst s.bindings s.head.key

/-- The templates. -/
def bag (s : Solution F n) : List (Tuple F Nat) :=
  s.answers.map fun a => subst s.bindings a.template

end Solution

section

variable [LinearOrder F]

/-- `key_compare` finds no order that is wrong. -/
def KeyLE (a b : Answer F n) : Prop := codes a.key ≤ codes b.key

/-- `keysort`, which sorts with `qsort`: by the standard order of the keys, and it is stable. -/
structure IsKeysort (keysort : List (Answer F n) → List (Answer F n)) : Prop where
  perm : ∀ l, (keysort l).Perm l
  sorted : ∀ l, (keysort l).Pairwise KeyLE
  stable : ∀ l k,
    (keysort l).filter (fun a => codes a.key = k) = l.filter fun a => codes a.key = k

/-- `parade`: the answers that are joined to `Key`, the others, and the bindings. -/
def parade (S : Symbols F) (fuel : Nat) : List (Answer F n) → Tuple F Nat → Bindings F →
    Option (List (Answer F n) × List (Answer F n) × Bindings F)
  | [], _, σ => some ([], [], σ)
  | a :: bags, key, σ =>
    if variant S fuel (subst σ a.key) (subst σ key) then
      (unify fuel a.key key σ).bind fun σ =>
        (parade S fuel bags key σ).map fun r => (a :: r.1, r.2)
    else some ([], a :: bags, σ)

/-- `pick`, and `decide` as it is resumed. The first argument bounds the number of solutions. -/
def pick (S : Symbols F) (fuel : Nat) : Nat → List (Answer F n) → Bindings F →
    List (Solution F n)
  | 0, _, _ => []
  | _ + 1, [], _ => []
  | m + 1, a :: bags, σ =>
    match parade S fuel bags a.key σ with
    | none => []
    | some (bag1, bags1, σ) => ⟨a, a :: bag1, σ⟩ :: pick S fuel m bags1 σ

/-- The solution without free variables, which fails if there is no answer. -/
def wholeBag : List (Answer F n) → List (Solution F n)
  | [] => []
  | a :: answers => [⟨a, a :: answers, unbound⟩]

/-- `bagof1`, for a generator with some answers. -/
def bagof1 (S : Symbols F) (keysort : List (Answer F n) → List (Answer F n)) (fuel hreg : Nat)
    (answers : List (Answer F n)) : List (Solution F n) :=
  let bags0 := bfindall hreg answers
  if n = 0 then wholeBag bags0 else pick S fuel bags0.length (keysort bags0) unbound

end

open Classical in
/-- The answers of a variant class. -/
noncomputable def classOf (answers : List (Answer F n)) (key : Tuple F Nat) : List (Answer F n) :=
  answers.filter fun a => Variant a.key key

/-- One solution for each variant class of the answers, with the answers of the class in their order
and the variables of the key of each identified with those of the solution's. -/
structure GroupsAnswers (answers : List (Answer F n)) (solutions : List (Solution F n)) : Prop where
  one : solutions.Pairwise fun s s' => ¬ Variant s.key s'.key
  all : ∀ a ∈ answers, ∃ s ∈ solutions, Variant a.key s.key
  group : ∀ s ∈ solutions, s.answers ≠ [] ∧ s.answers = classOf answers s.key
  shared : ∀ s ∈ solutions, ∀ a ∈ s.answers, ∃ ρ, a.key.rename ρ = s.key ∧
    subst s.bindings a.template = a.template.rename ρ ∧ ∀ v, v ∉ a.key.vars → ρ v = v

/-- No key is ordered between two variants without being one, and `variant` tells the first key of
each class from the key that comes next to the class. -/
structure Separated [LinearOrder F] (S : Symbols F) (fuel : Nat) (answers : List (Answer F n)) :
    Prop where
  between : ∀ a ∈ answers, ∀ b ∈ answers, ∀ c ∈ answers, Variant a.key b.key →
    codes a.key < codes c.key → codes c.key < codes b.key → Variant c.key a.key
  next : ∀ l₁ h l₂, answers = l₁ ++ h :: l₂ → (∀ a ∈ l₁, ¬ Variant a.key h.key) →
    ∀ b ∈ answers, (∀ a ∈ classOf answers h.key, codes a.key < codes b.key) →
    (∀ c ∈ answers, (∀ a ∈ classOf answers h.key, codes a.key < codes c.key) →
      codes b.key ≤ codes c.key) →
    variant S fuel b.key h.key = false

/-! ### Keys -/

variable {answers l l' : List (Answer F n)} {a b h : Answer F n} {t t' t'' : Tuple F Nat}

theorem Variant.trans (h : Variant t t') (h' : Variant t' t'') : Variant t t'' := by
  obtain ⟨σ, τ, hσ, hτ⟩ := h
  obtain ⟨σ', τ', hσ', hτ'⟩ := h'
  have hcomp : ∀ (ρ ρ' : Nat → Nat) (u : Tuple F Nat),
      u.rename (ρ' ∘ ρ) = (u.rename ρ).rename ρ' := by
    intro ρ ρ' u
    induction u with
    | nil => rfl
    | var v rest ih => rw [Tuple.rename, Tuple.rename, Tuple.rename, ih, Function.comp_apply]
    | app f args rest ihargs ih => rw [Tuple.rename, Tuple.rename, Tuple.rename, ihargs, ih]
  exact ⟨σ' ∘ σ, τ ∘ τ', by rw [hcomp, hσ, hσ'], by rw [hcomp, hτ', hτ]⟩

theorem mem_classOf : a ∈ classOf answers t ↔ a ∈ answers ∧ Variant a.key t := by
  simp [classOf]

theorem classOf_append : classOf (l ++ l') t = classOf l t ++ classOf l' t := filter_append ..

theorem classOf_self (h : ∀ a ∈ l, Variant a.key t) : classOf l t = l :=
  filter_eq_self.mpr fun a ha => by simpa using h a ha

theorem classOf_nil (h : ∀ a ∈ l, ¬ Variant a.key t) : classOf l t = [] :=
  filter_eq_nil_iff.mpr (by simpa using h)

theorem classOf_cons (h : Variant a.key t) : classOf (a :: l) t = a :: classOf l t :=
  filter_cons_of_pos (by simpa using h)

theorem classOf_congr (h : Variant t t') : classOf answers t = classOf answers t' := by
  apply filter_congr
  intro a _
  rw [decide_eq_decide]
  exact ⟨fun ha => Variant.trans ha h, fun ha => Variant.trans ha h.symm⟩

theorem codes_append_inj (l l' : List (ℕ ⊕ₗ (ℕ ×ₗ F))) (hlen : t.length = t'.length)
    (heq : codes t ++ l = codes t' ++ l') : t = t' ∧ l = l' := by
  induction t generalizing t' l l' with
  | nil =>
    cases t' with
    | nil => exact ⟨rfl, heq⟩
    | var v rest | app f args rest => cases hlen
  | var v rest ih =>
    cases t' with
    | nil => cases hlen
    | var w rest' =>
      simp only [codes, cons_append, List.cons.injEq, toLex_inj, Sum.inl.injEq] at heq
      obtain ⟨rfl, hl⟩ := ih _ _ (Nat.succ.inj hlen) heq.2
      exact ⟨by rw [heq.1], hl⟩
    | app g args' rest' => simp [codes] at heq
  | app f args rest ihargs ih =>
    cases t' with
    | nil => cases hlen
    | var w rest' => simp [codes] at heq
    | app g args' rest' =>
      simp only [codes, cons_append, append_assoc, List.cons.injEq, toLex_inj,
        Sum.inr.injEq, Prod.mk.injEq] at heq
      obtain ⟨⟨hargs, rfl⟩, htail⟩ := heq
      obtain ⟨rfl, hrest⟩ := ihargs _ _ hargs htail
      obtain ⟨rfl, hl⟩ := ih _ _ (Nat.succ.inj hlen) hrest
      exact ⟨rfl, hl⟩

/-- Keys of one code are the same. -/
theorem Answer.codes_inj (h : codes a.key = codes b.key) : a.key = b.key :=
  (codes_append_inj [] [] (a.length_key.trans b.length_key.symm) (by simpa using h)).1

theorem variant_of_codes (h : codes a.key = codes b.key) : Variant a.key b.key := by
  rw [Answer.codes_inj h]
  exact Variant.refl _

/-- A term without variables has itself as its only variant. -/
theorem eq_of_ground (h : Variant t t') (hvars : t'.vars = []) : t = t' := by
  obtain ⟨σ, τ, -, hτ⟩ := h
  rw [← hτ, rename_congr τ id (by simp [hvars]), rename_id]

section

variable [LinearOrder F]

/-- A term with older variables comes first. -/
theorem codes_rename_lt {ρ : Nat → Nat} (l l' : List (ℕ ⊕ₗ (ℕ ×ₗ F)))
    (hρ : ∀ v ∈ t.vars, ρ v < v) (hlt : t.vars ≠ [] ∨ l < l') :
    codes (t.rename ρ) ++ l < codes t ++ l' := by
  induction t generalizing l l' with
  | nil => exact hlt.resolve_left fun h => h rfl
  | var v rest ih =>
    rw [Tuple.vars, forall_mem_cons] at hρ
    rw [Tuple.rename, codes, codes, cons_append, cons_append, cons_lt_cons_iff]
    exact .inl (Sum.Lex.inl_lt_inl_iff.mpr hρ.1)
  | app f args rest ihargs ih =>
    rw [Tuple.vars, forall_mem_append] at hρ
    rw [Tuple.rename, codes, codes, Tuple.length_rename, cons_append, cons_append,
      cons_lt_cons_iff]
    refine .inr ⟨rfl, ?_⟩
    rw [append_assoc, append_assoc]
    apply ihargs _ _ hρ.1
    by_cases hargs : args.vars = []
    · refine .inr (ih _ _ hρ.2 ?_)
      rw [Tuple.vars, hargs, nil_append] at hlt
      exact hlt
    · exact .inl hargs

end

/-! ### The copies -/

/-- The variables of each answer are older than those of the later ones. -/
def Laid (l : List (Answer F n)) : Prop :=
  l.Pairwise fun a b => ∀ v ∈ a.vars, ∀ w ∈ b.vars, v < w

theorem Answer.mem_vars {v : Nat} : v ∈ a.vars ↔ .inr v ∈ a.tokens := by
  rw [vars, tokens, mem_append, mem_append, Tuple.mem_vars, Tuple.mem_vars]

theorem Answer.vars_rename (ρ : Nat → Nat) (a : Answer F n) :
    (a.rename ρ).vars = a.vars.map ρ := by
  rw [vars, vars, map_append, ← Setof.vars_rename, ← Setof.vars_rename]
  rfl

theorem mem_copy_vars {hreg v : Nat}
    (hv : v ∈ (a.rename fun v => hreg + indexIn (seenAfter [] a.tokens) v).vars) :
    hreg ≤ v ∧ v < hreg + (seenAfter [] a.tokens).length := by
  rw [Answer.vars_rename] at hv
  obtain ⟨u, hu, rfl⟩ := mem_map.mp hv
  have hlt := indexIn_lt (mem_seenAfter [] (Answer.mem_vars.mp hu))
  omega

theorem le_of_mem_bfindall {hreg v : Nat} (hb : b ∈ bfindall hreg answers) (hv : v ∈ b.vars) :
    hreg ≤ v := by
  induction answers generalizing hreg with
  | nil => exact absurd hb not_mem_nil
  | cons a answers ih =>
    rcases mem_cons.mp hb with rfl | hb
    · exact (mem_copy_vars hv).1
    · exact (Nat.le_add_right ..).trans (ih hb)

/-- The answers are copied one after the other. -/
theorem bfindall_laid (hreg : Nat) (answers : List (Answer F n)) :
    Laid (bfindall hreg answers) := by
  induction answers generalizing hreg with
  | nil => exact List.Pairwise.nil
  | cons a answers ih =>
    refine List.Pairwise.cons (fun b hb v hv w hw => ?_) (ih _)
    exact (mem_copy_vars hv).2.trans_le (le_of_mem_bfindall hb hw)

/-- A copy is as long as the answer. -/
theorem exists_of_mem_bfindall {hreg : Nat} (hb : b ∈ bfindall hreg answers) :
    ∃ a ∈ answers, b.key.tokens.length = a.key.tokens.length := by
  induction answers generalizing hreg with
  | nil => exact absurd hb not_mem_nil
  | cons a answers ih =>
    rcases mem_cons.mp hb with rfl | hb
    · refine ⟨a, mem_cons_self, ?_⟩
      rw [Answer.rename, Tuple.tokens_rename, length_map]
    · obtain ⟨a', ha', hlen⟩ := ih hb
      exact ⟨a', mem_cons_of_mem a ha', hlen⟩

section

variable [LinearOrder F]

/-- The later of two variants has the greater key, unless it is ground. -/
theorem codes_lt_of_variant (h : Variant b.key a.key) (hvars : b.key.vars ≠ [])
    (hold : ∀ v ∈ a.vars, ∀ w ∈ b.vars, v < w) : codes a.key < codes b.key := by
  obtain ⟨ρ, hρ, hren⟩ := renames_of_variant h fun v hv w hw =>
    hold w (mem_append_left _ hw) v (mem_append_left _ hv)
  have hlt := codes_rename_lt [] [] hren.older (.inl hvars)
  rwa [List.append_nil, List.append_nil, hρ] at hlt

omit [LinearOrder F] in
theorem vars_ne_nil_of_variant (h : Variant t t') (hvars : t'.vars ≠ []) : t.vars ≠ [] := by
  obtain ⟨σ, τ, hσ, -⟩ := h
  intro hnil
  rw [← hσ, vars_rename, hnil] at hvars
  exact hvars rfl

/-- A stable sort keeps the order of each variant class. -/
theorem classOf_keysort {keysort : List (Answer F n) → List (Answer F n)}
    (hsort : IsKeysort keysort) (hlaid : Laid l) (a : Answer F n) :
    classOf (keysort l) a.key = classOf l a.key := by
  by_cases hvars : a.key.vars = []
  · have hclass : ∀ l : List (Answer F n),
        classOf l a.key = l.filter fun b => codes b.key = codes a.key := by
      intro l
      apply filter_congr
      intro b _
      rw [decide_eq_decide]
      exact ⟨fun h => by rw [eq_of_ground h hvars], variant_of_codes⟩
    rw [hclass, hclass]
    exact hsort.stable l _
  · have hlt : (classOf l a.key).Pairwise fun b c => codes b.key < codes c.key := by
      refine (hlaid.filter _).imp_of_mem fun {b c} hb hc hbc => ?_
      have hb' := (mem_classOf.mp hb).2
      have hc' := (mem_classOf.mp hc).2
      exact codes_lt_of_variant (Variant.trans hc' hb'.symm) (vars_ne_nil_of_variant hc' hvars) hbc
    refine List.Perm.eq_of_pairwise (fun b c hb hc (hbc : KeyLE b c) (hcb : KeyLE c b) => ?_)
      ((hsort.sorted l).filter _) (hlt.imp le_of_lt) ((hsort.perm l).filter _)
    have heq : codes b.key = codes c.key := le_antisymm hbc hcb
    have hb' : b ∈ classOf l a.key := ((hsort.perm l).filter _).mem_iff.mp hb
    by_contra hne
    have hsymm : Std.Symm fun b c : Answer F n => codes b.key ≠ codes c.key :=
      ⟨fun _ _ h => h.symm⟩
    have hdistinct : (classOf l a.key).Pairwise fun b c => codes b.key ≠ codes c.key :=
      hlt.imp fun h => h.ne
    exact hdistinct.forall hb' hc hne heq

/-! ### A run of answers -/

variable {S : Symbols F} {fuel m : Nat} {σ σ' : Bindings F} {E : Set Nat} {key : Tuple F Nat}
  {bags bag1 bags1 rest : List (Answer F n)}

/-- The variables of some answers. -/
def varsOf (l : List (Answer F n)) : Set Nat := {v | ∃ a ∈ l, v ∈ a.vars}

/-- What `parade` has read, and its bindings. -/
theorem parade_spec (hrun : parade S fuel bags key σ = some (bag1, bags1, σ'))
    (hσ : Within E σ) (hkey : ∀ v ∈ key.vars, v ∈ E) :
    bags = bag1 ++ bags1 ∧ Within (E ∪ varsOf bag1) σ' := by
  induction bags generalizing σ bag1 E with
  | nil =>
    cases hrun
    exact ⟨rfl, hσ.mono Set.subset_union_left⟩
  | cons a bags ih =>
    rw [parade] at hrun
    split at hrun
    next =>
      obtain ⟨σ1, hunify, hrest⟩ := Option.bind_eq_some_iff.mp hrun
      obtain ⟨⟨b, r⟩, hparade, heq⟩ := Option.map_eq_some_iff.mp hrest
      cases heq
      have hσ1 : Within (E ∪ {v | v ∈ a.vars}) σ1 := by
        apply unify_within (hσ.mono Set.subset_union_left) _ _ hunify
        · exact fun v hv => .inr (mem_append_left _ hv)
        · exact fun v hv => .inl (hkey v hv)
      obtain ⟨rfl, hσ'⟩ := ih hparade hσ1 fun v hv => .inl (hkey v hv)
      refine ⟨rfl, hσ'.mono ?_⟩
      rintro v ((hv | hv) | ⟨c, hc, hv⟩)
      · exact .inl hv
      · exact .inr ⟨a, mem_cons_self, hv⟩
      · exact .inr ⟨c, mem_cons_of_mem a hc, hv⟩
    next =>
      cases hrun
      exact ⟨rfl, hσ.mono Set.subset_union_left⟩

/-- The bindings identify the variables of the keys of some answers with those of a key. -/
structure Joined (key : Tuple F Nat) (l : List (Answer F n)) (σ : Bindings F) : Prop where
  fixed : ∀ v ∈ key.vars, σ v = .var v .nil
  shared : ∀ a ∈ l, ∃ ρ, a.key.rename ρ = key ∧ (∀ v, v ∉ a.key.vars → ρ v = v) ∧
    ∀ v ∈ a.vars, σ v = .var (ρ v) .nil

/-- Answers whose keys are variants of the key, and whose variables are unbound, are joined. -/
theorem parade_variants (S : Symbols F) (fuel : Nat) (hσ : Within E σ) (hE : ∀ v ∈ key.vars, v ∈ E)
    (hkey : ∀ v ∈ key.vars, σ v = .var v .nil)
    (hl : ∀ a ∈ l, Variant a.key key ∧ (∀ v ∈ a.key.vars, ∀ w ∈ key.vars, w < v) ∧
      (∀ v ∈ a.vars, v ∉ E) ∧ a.key.tokens.length < fuel)
    (hlaid : l.Pairwise fun a b => ∀ v ∈ a.vars, v ∉ b.vars) (rest : List (Answer F n)) :
    ∃ σ', parade S fuel (l ++ rest) key σ =
        (parade S fuel rest key σ').map (fun r => (l ++ r.1, r.2)) ∧
      Within (E ∪ varsOf l) σ' ∧ Joined key l σ' ∧
      ∀ w, (∀ a ∈ l, ∀ v ∈ a.vars, v ∉ (σ w).vars) → σ' w = σ w := by
  induction l generalizing σ E with
  | nil =>
    refine ⟨σ, ?_, hσ.mono Set.subset_union_left, ⟨hkey, by simp⟩, fun _ _ => rfl⟩
    simp
  | cons a l ih =>
    rw [forall_mem_cons] at hl
    rw [pairwise_cons] at hlaid
    obtain ⟨⟨hvariant, hold, hfresh, hfuel⟩, hl⟩ := hl
    obtain ⟨ρ, hρ, hren⟩ := renames_of_variant hvariant hold
    have hkeyvars : ∀ v ∈ a.key.vars, ρ v ∈ key.vars := by
      intro v hv
      rw [← hρ, vars_rename]
      exact mem_map_of_mem hv
    have hself : ∀ v ∈ a.vars, σ v = .var v .nil := fun v hv => (hσ v).1 (hfresh v hv)
    have hkeysub : ∀ v ∈ a.key.vars, v ∈ a.vars := fun v hv => mem_append_left _ hv
    have hcheck : variant S fuel (subst σ a.key) (subst σ key) = true := by
      rw [subst_self fun v hv => hself v (hkeysub v hv), subst_self hkey, ← hρ]
      exact variant_rename S hren (fun _ hv => hv) hfuel
    obtain ⟨σ1, hunify, -, hbound, hsame⟩ := unify_rename hren
      (fun v hv => ⟨.inl (hself v (hkeysub v hv)), hkey _ (hkeyvars v hv)⟩) (fun _ hv => hv) hfuel
    rw [hρ] at hunify
    have hσ1 : Within (E ∪ {v | v ∈ a.vars}) σ1 := by
      apply unify_within (hσ.mono Set.subset_union_left) _ _ hunify
      · exact fun v hv => .inr (hkeysub v hv)
      · exact fun v hv => .inl (hE v hv)
    have hkey1 : ∀ v ∈ key.vars, σ1 v = .var v .nil := by
      intro w hw
      rw [hsame w, hkey w hw]
      intro v hv hmem
      rw [hkey w hw] at hmem
      rw [mem_singleton.mp hmem] at hv
      exact hfresh w (hkeysub w hv) (hE w hw)
    obtain ⟨σ', hparade, hσ', hjoined, hsame'⟩ := ih hσ1 (fun v hv => .inl (hE v hv)) hkey1
      (fun b hb => ⟨(hl b hb).1, (hl b hb).2.1, fun v hv hmem => hmem.elim ((hl b hb).2.2.1 v hv)
        fun hva => hlaid.1 b hb v hva hv, (hl b hb).2.2.2⟩) hlaid.2
    refine ⟨σ', ?_, hσ'.mono ?_, ⟨hjoined.fixed, ?_⟩, ?_⟩
    · rw [cons_append, parade, if_pos hcheck, hunify, Option.bind_some, hparade,
        Option.map_map]
      rfl
    · rintro v ((hv | hv) | ⟨c, hc, hv⟩)
      · exact .inl hv
      · exact .inr ⟨a, mem_cons_self, hv⟩
      · exact .inr ⟨c, mem_cons_of_mem a hc, hv⟩
    · rw [forall_mem_cons]
      refine ⟨⟨fun v => if v ∈ a.key.vars then ρ v else v, ?_, fun v hv => if_neg hv, ?_⟩,
        hjoined.shared⟩
      · rw [← hρ]
        exact rename_congr _ _ fun v hv => if_pos hv
      · intro v hv
        by_cases hva : v ∈ a.key.vars
        · simp only [if_pos hva]
          rw [hsame' v, hbound v hva]
          intro b hb u hu hmem
          rw [hbound v hva] at hmem
          rw [mem_singleton.mp hmem] at hu
          exact (hl b hb).2.2.1 _ hu (hE _ (hkeyvars v hva))
        · simp only [if_neg hva]
          have hv1 : σ1 v = .var v .nil := by
            rw [hsame v, hself v hv]
            intro u hu hmem
            rw [hself v hv] at hmem
            rw [mem_singleton.mp hmem] at hu
            exact hva hu
          rw [hsame' v, hv1]
          intro b hb u hu hmem
          rw [hv1] at hmem
          rw [mem_singleton.mp hmem] at hu
          exact hlaid.1 b hb v hv hu
    · intro w hw
      rw [forall_mem_cons] at hw
      have hw1 : σ1 w = σ w := hsame w fun v hv => hw.1 v (hkeysub v hv)
      rw [hsame' w, hw1]
      rw [hw1]
      exact hw.2

/-- No variable is in two answers. -/
def Apart (l : List (Answer F n)) : Prop := l.Pairwise fun a b => ∀ v ∈ a.vars, v ∉ b.vars

omit [LinearOrder F] in
theorem Laid.apart (hl : Laid l) (hperm : l'.Perm l) : Apart l' := by
  refine hperm.symm.pairwise (hl.imp fun {a b} hab v hv hv' => (hab v hv v hv').false) ?_
  exact fun h v hv hv' => h v hv' hv

omit [LinearOrder F] in
theorem varsOf_append : varsOf (l ++ l') = varsOf l ∪ varsOf l' := by
  ext v
  simp only [varsOf, mem_append, Set.mem_union, Set.mem_ofPred_eq]
  constructor
  · rintro ⟨a, ha | ha, hv⟩
    · exact .inl ⟨a, ha, hv⟩
    · exact .inr ⟨a, ha, hv⟩
  · rintro (⟨a, ha, hv⟩ | ⟨a, ha, hv⟩)
    · exact ⟨a, .inl ha, hv⟩
    · exact ⟨a, .inr ha, hv⟩

/-- The variants of an answer that follow it are joined to it. -/
theorem parade_block (S : Symbols F) (fuel : Nat) {pre : List (Answer F n)}
    (hapart : Apart (pre ++ (h :: bag1 ++ rest)))
    (hlaid : Laid (h :: bag1)) (hσ : Within (varsOf pre) σ)
    (hvariant : ∀ a ∈ bag1, Variant a.key h.key)
    (hfuel : ∀ a ∈ bag1, a.key.tokens.length < fuel) :
    ∃ σ', parade S fuel (bag1 ++ rest) h.key σ =
        (parade S fuel rest h.key σ').map (fun r => (bag1 ++ r.1, r.2)) ∧
      Within (varsOf (pre ++ h :: bag1)) σ' ∧ Joined h.key (h :: bag1) σ' ∧
      ∀ b ∈ rest, subst σ' b.key = b.key := by
  obtain ⟨-, hblock, hpre⟩ := pairwise_append.mp hapart
  obtain ⟨hrun, -, hrest⟩ := pairwise_append.mp hblock
  obtain ⟨hhead, hbag⟩ := pairwise_cons.mp hrun
  obtain ⟨hold, -⟩ := pairwise_cons.mp hlaid
  have hkeysub : ∀ v ∈ h.key.vars, v ∈ h.vars := fun v hv => mem_append_left _ hv
  have hunbound : ∀ v ∈ h.vars, σ v = .var v .nil := by
    intro v hv
    apply (hσ v).1
    rintro ⟨a, ha, hva⟩
    exact hpre a ha h (mem_append_left _ mem_cons_self) v hva hv
  have hfresh : ∀ a ∈ bag1, ∀ v ∈ a.vars, v ∉ varsOf pre ∪ {v | v ∈ h.vars} := by
    rintro a ha v hv (⟨c, hc, hvc⟩ | hvh)
    · exact hpre c hc a (mem_append_left _ (mem_cons_of_mem h ha)) v hvc hv
    · exact hhead a ha v hvh hv
  obtain ⟨σ', hparade, hσ', hjoined, hsame⟩ := parade_variants S fuel
    (E := varsOf pre ∪ {v | v ∈ h.vars}) (hσ.mono Set.subset_union_left)
    (fun v hv => .inr (hkeysub v hv)) (fun v hv => hunbound v (hkeysub v hv))
    (fun a ha => ⟨hvariant a ha, fun v hv w hw =>
      hold a ha w (hkeysub w hw) v (mem_append_left _ hv), hfresh a ha, hfuel a ha⟩)
    hbag rest
  have hwithin : varsOf pre ∪ {v | v ∈ h.vars} ∪ varsOf bag1 = varsOf (pre ++ h :: bag1) := by
    have hcons : varsOf (h :: bag1) = {v | v ∈ h.vars} ∪ varsOf bag1 := by
      ext v
      simp [varsOf]
    rw [varsOf_append, hcons, Set.union_assoc]
  rw [hwithin] at hσ'
  refine ⟨σ', hparade, hσ', ⟨hjoined.fixed, ?_⟩, fun b hb => subst_self fun v hv => ?_⟩
  · rw [forall_mem_cons]
    refine ⟨⟨id, rename_id _, fun _ _ => rfl, fun v hv => ?_⟩, hjoined.shared⟩
    rw [hsame v, hunbound v hv, id]
    intro a ha u hu hmem
    rw [hunbound v hv] at hmem
    rw [mem_singleton.mp hmem] at hu
    exact hhead a ha v hv hu
  · apply (hσ' v).1
    have hvb : v ∈ b.vars := mem_append_left _ hv
    rw [varsOf_append]
    rintro (⟨a, ha, hva⟩ | ⟨a, ha, hva⟩)
    · exact hpre a ha b (mem_append_right _ hb) v hva hvb
    · exact hrest a ha b hb v hva hvb

/-- Where the answers of a solution are among those that are read. -/
theorem pick_mem {s : Solution F n} (pre : List (Answer F n)) (hσ : Within (varsOf pre) σ)
    (hs : s ∈ pick S fuel m bags σ) :
    ∃ before bag1 rest σ1, bags = before ++ (s.answers ++ rest) ∧ s.answers = s.head :: bag1 ∧
      Within (varsOf (pre ++ before)) σ1 ∧
      parade S fuel (bag1 ++ rest) s.head.key σ1 = some (bag1, rest, s.bindings) := by
  induction m generalizing bags σ pre with
  | zero => exact absurd hs not_mem_nil
  | succ m ih =>
    cases bags with
    | nil => exact absurd hs not_mem_nil
    | cons a bags =>
      rw [pick] at hs
      split at hs
      next => exact absurd hs not_mem_nil
      next bag1 bags1 σ' hrun =>
        have hsub : varsOf pre ⊆ varsOf (pre ++ [a]) := by
          rw [varsOf_append]
          exact Set.subset_union_left
        obtain ⟨rfl, hσ'⟩ := parade_spec hrun (hσ.mono hsub)
          fun v hv => ⟨a, mem_append_right _ mem_cons_self, mem_append_left _ hv⟩
        rcases mem_cons.mp hs with rfl | hs
        · exact ⟨[], bag1, bags1, σ, rfl, rfl, by rwa [List.append_nil], hrun⟩
        · rw [← varsOf_append, append_assoc, singleton_append] at hσ'
          obtain ⟨before, bag1', rest, σ1, heq, hans, hσ1, hparade⟩ := ih _ hσ' hs
          refine ⟨a :: bag1 ++ before, bag1', rest, σ1, ?_, hans, ?_, hparade⟩
          · rw [heq, cons_append, cons_append, append_assoc]
          · rwa [← append_assoc]

end

end XSBEngine.Setof
