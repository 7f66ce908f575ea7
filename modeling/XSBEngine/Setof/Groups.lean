import XSBEngine.Library.Neighbours
import XSBEngine.Setof.Bagof

/-!
# Grouping of the answers of `bagof/3`

When `XSB/syslib/setof.P:58–102` has one solution for each variant class of the answers.
-/

namespace XSBEngine.Setof

open List PrefixTerms

variable {F : Type*} {n : Nat} {answers l l' bags bag1 bags1 rest : List (Answer F n)}
  {a b h : Answer F n}

section

variable [LinearOrder F] {S : Symbols F} {fuel m : Nat} {σ σ' : Bindings F}

/-! ### The condition is needed -/

variable {keysort : List (Answer F n) → List (Answer F n)} {solutions : List (Solution F n)}

omit [LinearOrder F] in
theorem GroupsAnswers.variant_iff (hG : GroupsAnswers answers solutions) {s : Solution F n}
    (hs : s ∈ solutions) : a ∈ s.answers ↔ a ∈ answers ∧ Variant a.key s.key := by
  rw [(hG.group s hs).2, mem_classOf]

/-- A run of the sorted answers, where it is in the list. -/
structure RunAt (S : Symbols F) (fuel : Nat) (sorted : List (Answer F n)) (s : Solution F n)
    (before bag1 rest : List (Answer F n)) : Prop where
  split : sorted = before ++ (s.head :: bag1 ++ rest)
  answers : s.answers = s.head :: bag1
  run : ∃ σ, Within (varsOf before) σ ∧
    parade S fuel (bag1 ++ rest) s.head.key σ = some (bag1, rest, s.bindings)

/-- After a run of variants `variant` fails. -/
theorem RunAt.stops {sorted before : List (Answer F n)} {s : Solution F n}
    (hrun : RunAt S fuel sorted s before bag1 (b :: rest)) (hapart : Apart sorted)
    (hlaid : Laid (s.head :: bag1)) (hvariant : ∀ a ∈ bag1, Variant a.key s.head.key)
    (hfuel : ∀ a ∈ bag1, a.key.tokens.length < fuel) :
    variant S fuel b.key s.head.key = false := by
  obtain ⟨σ, hσ, hparade⟩ := hrun.run
  obtain ⟨σ', hblock, -, hjoined, hself⟩ := parade_block S fuel
    (hrun.split ▸ hapart) hlaid hσ hvariant hfuel
  rw [hblock, parade, hself b mem_cons_self, subst_self hjoined.fixed] at hparade
  by_contra hne
  rw [if_pos (by simpa using hne)] at hparade
  obtain ⟨r, hr, heq⟩ := Option.map_eq_some_iff.mp hparade
  obtain ⟨σ1, -, hr⟩ := Option.bind_eq_some_iff.mp hr
  obtain ⟨r', -, rfl⟩ := Option.map_eq_some_iff.mp hr
  have hlen := congrArg List.length (congrArg Prod.fst heq)
  simp at hlen

/-- If there is one solution for each class, the keys of the classes are separated. -/
theorem separated_of_groups (hsort : IsKeysort keysort) (hlaid : Laid l)
    (hfuel : ∀ a ∈ l, a.key.tokens.length < fuel)
    (hG : GroupsAnswers l (pick S fuel m (keysort l) unbound)) : Separated S fuel l := by
  have hmem : ∀ a, a ∈ keysort l ↔ a ∈ l := fun a => (hsort.perm l).mem_iff
  have hrun : ∀ s ∈ pick S fuel m (keysort l) unbound,
      ∃ before bag1 rest, RunAt S fuel (keysort l) s before bag1 rest := by
    intro s hs
    obtain ⟨before, bag1, rest, σ, hsplit, hans, hσ, hparade⟩ :=
      pick_mem [] (within_unbound _) hs
    exact ⟨before, bag1, rest, by rw [hsplit, hans], hans, σ, hσ, hparade⟩
  constructor
  case between =>
    intro a ha b hb c hc hab hac hcb
    obtain ⟨s, hs, has⟩ := hG.all a ha
    obtain ⟨before, bag1, rest, hat⟩ := hrun s hs
    have hamem := (hG.variant_iff hs).mpr ⟨ha, has⟩
    have hbmem := (hG.variant_iff hs).mpr ⟨hb, Variant.trans hab.symm has⟩
    have hsorted := hsort.sorted l
    rw [hat.split, ← hat.answers] at hsorted
    obtain ⟨-, hblock, hbefore⟩ := pairwise_append.mp hsorted
    obtain ⟨-, -, hrest⟩ := pairwise_append.mp hblock
    have hcmem := (hmem c).mpr hc
    rw [hat.split, ← hat.answers, mem_append, mem_append] at hcmem
    rcases hcmem with hcmem | hcmem | hcmem
    · exact absurd hac (not_lt_of_ge (hbefore c hcmem a (mem_append_left _ hamem)))
    · exact Variant.trans ((hG.variant_iff hs).mp hcmem).2 has.symm
    · exact absurd hcb (not_lt_of_ge (hrest b hbmem c hcmem))
  case next =>
    intro l1 h l2 hsplit hfirst b hb hgreater hleast
    have hh : h ∈ l := by rw [hsplit]; simp
    obtain ⟨s, hs, hhs⟩ := hG.all h hh
    obtain ⟨before, bag1, rest, hat⟩ := hrun s hs
    have hclass : classOf l h.key = s.head :: bag1 := by
      rw [classOf_congr hhs, ← (hG.group s hs).2, hat.answers]
    -- The first answer of the class is the one to which the others were joined.
    have hhead : s.head = h := by
      have hfilter : classOf l h.key = h :: classOf l2 h.key := by
        rw [hsplit, classOf_append, classOf_nil hfirst, nil_append,
          classOf_cons (Variant.refl h.key)]
      rw [hclass] at hfilter
      exact (List.cons.inj hfilter).1
    have hinclass : ∀ a ∈ s.head :: bag1, a ∈ l ∧ Variant a.key h.key := by
      intro a ha
      rw [← hclass] at ha
      exact mem_classOf.mp ha
    have hnew : ∀ c ∈ before ++ rest, ¬ Variant c.key h.key := by
      intro c hc hvariant
      have hperm : (classOf (keysort l) h.key).length = (classOf l h.key).length :=
        ((hsort.perm l).filter _).length_eq
      rw [hclass, hat.split, classOf_append, classOf_append,
        classOf_self fun a ha => (hinclass a ha).2, length_append, length_append] at hperm
      have hpos : 0 < (classOf (before ++ rest) h.key).length :=
        length_pos_of_mem (mem_classOf.mpr ⟨hc, hvariant⟩)
      rw [classOf_append, length_append] at hpos
      omega
    have hsorted := hsort.sorted l
    rw [hat.split] at hsorted
    obtain ⟨-, hblock, hbefore⟩ := pairwise_append.mp hsorted
    obtain ⟨-, hrestsorted, hrest⟩ := pairwise_append.mp hblock
    have hbmem := (hmem b).mpr hb
    rw [hat.split, mem_append, mem_append] at hbmem
    rcases hbmem with hbmem | hbmem | hbmem
    · have hle := hbefore b hbmem s.head (mem_append_left _ mem_cons_self)
      have hlt := hgreater s.head (by rw [hclass]; exact mem_cons_self)
      exact absurd hle (not_le_of_gt hlt)
    · exact absurd (hgreater b (by rw [hclass]; exact hbmem)) (lt_irrefl _)
    · cases rest with
      | nil => exact absurd hbmem not_mem_nil
      | cons c rest =>
        have hcl : c ∈ l := by
          rw [← hmem, hat.split]
          simp
        have hcgreater : ∀ a ∈ classOf l h.key, codes a.key < codes c.key := by
          intro a ha
          rw [hclass] at ha
          refine lt_of_le_of_ne (hrest a ha c mem_cons_self) fun heq => ?_
          apply hnew c (mem_append_right _ mem_cons_self)
          exact Variant.trans (variant_of_codes heq.symm) (hinclass a ha).2
        have hcb : codes c.key ≤ codes b.key := by
          rcases mem_cons.mp hbmem with rfl | hbmem
          · exact le_rfl
          · exact (pairwise_cons.mp hrestsorted).1 b hbmem
        have heq : b.key = c.key := Answer.codes_inj (le_antisymm (hleast c hcl hcgreater) hcb)
        rw [heq, ← hhead]
        apply hat.stops (hlaid.apart (hsort.perm l))
        · rw [← hclass]
          exact List.Pairwise.filter _ hlaid
        · intro a ha
          rw [hhead]
          exact (hinclass a (mem_cons_of_mem _ ha)).2
        · exact fun a ha => hfuel a (hinclass a (mem_cons_of_mem _ ha)).1

/-! ### The condition is enough -/

/-- The solutions for the last classes of the sorted answers. -/
structure GroupsRest (answers bags : List (Answer F n)) (solutions : List (Solution F n)) :
    Prop where
  one : solutions.Pairwise fun s s' => ¬ Variant s.key s'.key
  all : ∀ a ∈ bags, ∃ s ∈ solutions, Variant a.key s.key
  head : ∀ s ∈ solutions, s.head ∈ bags ∧ s.key = s.head.key
  group : ∀ s ∈ solutions, s.answers ≠ [] ∧ s.answers = classOf answers s.key
  shared : ∀ s ∈ solutions, ∀ a ∈ s.answers, ∃ ρ, a.key.rename ρ = s.key ∧
    subst s.bindings a.template = a.template.rename ρ ∧ ∀ v, v ∉ a.key.vars → ρ v = v

omit [LinearOrder F] in
/-- The variants of a key at the front of some answers. -/
theorem exists_run (key : Tuple F Nat) (bags : List (Answer F n)) : ∃ bag1 rest,
    bags = bag1 ++ rest ∧ (∀ a ∈ bag1, Variant a.key key) ∧
      ∀ b rest', rest = b :: rest' → ¬ Variant b.key key := by
  induction bags with
  | nil => exact ⟨[], [], rfl, by simp, nofun⟩
  | cons a bags ih =>
    by_cases ha : Variant a.key key
    · obtain ⟨bag1, rest, rfl, hbag, hrest⟩ := ih
      exact ⟨a :: bag1, rest, rfl, forall_mem_cons.mpr ⟨ha, hbag⟩, hrest⟩
    · refine ⟨[], a :: bags, rfl, by simp, ?_⟩
      rintro b rest' heq
      rw [← (List.cons.inj heq).1]
      exact ha

/-- A class whose first answer is read: the run is the class, and `variant` fails after it. -/
theorem class_read (hsep : Separated S fuel l) (hsort : IsKeysort keysort) (hlaid : Laid l)
    {pre : List (Answer F n)} (hsplit : keysort l = pre ++ (h :: bag1 ++ rest))
    (hpre : ∀ a ∈ pre, ¬ Variant a.key h.key) (hbag : ∀ a ∈ bag1, Variant a.key h.key)
    (hrest : ∀ b rest', rest = b :: rest' → ¬ Variant b.key h.key) :
    classOf l h.key = h :: bag1 ∧ (∀ c ∈ rest, ¬ Variant c.key h.key) ∧
      ∀ b rest', rest = b :: rest' → variant S fuel b.key h.key = false := by
  have hmem : ∀ a, a ∈ l ↔ a ∈ pre ++ (h :: bag1 ++ rest) := by
    intro a
    rw [← hsplit, (hsort.perm l).mem_iff]
  have hsorted := hsort.sorted l
  rw [hsplit] at hsorted
  obtain ⟨-, hblock, hbefore⟩ := pairwise_append.mp hsorted
  obtain ⟨-, hrestsorted, hafter⟩ := pairwise_append.mp hblock
  have hrun : ∀ a ∈ h :: bag1, Variant a.key h.key :=
    forall_mem_cons.mpr ⟨Variant.refl _, hbag⟩
  have hnone : ∀ c ∈ rest, ¬ Variant c.key h.key := by
    intro c hc hvariant
    cases rest with
    | nil => exact absurd hc not_mem_nil
    | cons b rest =>
      have hb := hrest b rest rfl
      have hhb : codes h.key < codes b.key :=
        lt_of_le_of_ne (hafter h mem_cons_self b mem_cons_self)
          fun heq => hb (variant_of_codes heq.symm)
      rcases mem_cons.mp hc with rfl | hc
      · exact hb hvariant
      · have hbc : codes b.key < codes c.key :=
          lt_of_le_of_ne ((pairwise_cons.mp hrestsorted).1 c hc)
            fun heq => hb (Variant.trans (variant_of_codes heq) hvariant)
        exact hb (hsep.between h ((hmem h).mpr (by simp)) c ((hmem c).mpr (by simp [hc])) b
          ((hmem b).mpr (by simp)) hvariant.symm hhb hbc)
  have hclass : classOf l h.key = h :: bag1 := by
    rw [← classOf_keysort hsort hlaid h, hsplit, classOf_append, classOf_append, classOf_nil hpre,
      classOf_nil hnone, classOf_self hrun, List.append_nil, nil_append]
  refine ⟨hclass, hnone, ?_⟩
  rintro b rest' rfl
  obtain ⟨l1, l2, heq, hfirst, -⟩ := filter_eq_cons_iff.mp hclass
  apply hsep.next l1 h l2 heq (by simpa using hfirst) b ((hmem b).mpr (by simp))
  · intro a ha
    rw [hclass] at ha
    refine lt_of_le_of_ne (hafter a ha b mem_cons_self) fun heq => ?_
    exact hnone b mem_cons_self (Variant.trans (variant_of_codes heq.symm) (hrun a ha))
  · intro c hc hgreater
    rw [hclass] at hgreater
    rw [hmem, mem_append, mem_append] at hc
    rcases hc with hc | hc | hc
    · have hle := hbefore c hc h (mem_append_left _ mem_cons_self)
      exact absurd hle (not_le_of_gt (hgreater h mem_cons_self))
    · exact absurd (hgreater c hc) (lt_irrefl _)
    · rcases mem_cons.mp hc with rfl | hc
      · exact le_rfl
      · exact (pairwise_cons.mp hrestsorted).1 c hc

/-- The classes are read one after the other. -/
theorem pick_groups (hsep : Separated S fuel l) (hsort : IsKeysort keysort) (hlaid : Laid l)
    (hfuel : ∀ a ∈ l, a.key.tokens.length < fuel) (pre : List (Answer F n))
    (hsplit : keysort l = pre ++ bags) (hpre : ∀ a ∈ pre, ∀ b ∈ bags, ¬ Variant a.key b.key)
    (hσ : Within (varsOf pre) σ) (hm : bags.length ≤ m) :
    GroupsRest l bags (pick S fuel m bags σ) := by
  induction m generalizing bags pre σ with
  | zero =>
    rw [length_eq_zero_iff.mp (Nat.le_zero.mp hm)]
    exact ⟨List.Pairwise.nil, by simp, nofun, nofun, nofun⟩
  | succ m ih =>
    cases bags with
    | nil => exact ⟨List.Pairwise.nil, by simp, nofun, nofun, nofun⟩
    | cons h bags =>
      obtain ⟨bag1, rest, rfl, hbag, hrest⟩ := exists_run h.key bags
      rw [← cons_append] at hsplit
      obtain ⟨hclass, hnone, hstop⟩ := class_read hsep hsort hlaid hsplit
        (fun a ha => hpre a ha h mem_cons_self) hbag hrest
      have hsub : ∀ a ∈ h :: bag1, a ∈ l ∧ Variant a.key h.key := by
        intro a ha
        rw [← hclass] at ha
        exact mem_classOf.mp ha
      have hapart : Apart (keysort l) := hlaid.apart (hsort.perm l)
      have hrunlaid : Laid (h :: bag1) := by
        rw [← hclass]
        exact List.Pairwise.filter _ hlaid
      obtain ⟨σ', hparade, hσ', hjoined, hself⟩ := parade_block S fuel
        (hsplit ▸ hapart) hrunlaid hσ hbag
        fun a ha => hfuel a (hsub a (mem_cons_of_mem h ha)).1
      have hend : parade S fuel rest h.key σ' = some ([], rest, σ') := by
        cases rest with
        | nil => rfl
        | cons b rest =>
          rw [parade, hself b mem_cons_self, subst_self hjoined.fixed, hstop b rest rfl]
          rfl
      have hpick : pick S fuel (m + 1) (h :: (bag1 ++ rest)) σ =
          ⟨h, h :: bag1, σ'⟩ :: pick S fuel m rest σ' := by
        rw [pick, hparade, hend]
        simp
      have hkey : (⟨h, h :: bag1, σ'⟩ : Solution F n).key = h.key := subst_self hjoined.fixed
      have hothers : GroupsRest l rest (pick S fuel m rest σ') := ih (pre ++ h :: bag1)
        (by rw [hsplit, append_assoc])
        (by
          intro a ha b hb
          rcases mem_append.mp ha with ha | ha
          · exact hpre a ha b (mem_cons_of_mem h (mem_append_right _ hb))
          · exact fun hab => hnone b hb (Variant.trans hab.symm (hsub a ha).2))
        hσ' (by simp only [length_cons, length_append] at hm; omega)
      rw [hpick]
      constructor
      case one =>
        refine List.Pairwise.cons (fun s hs => ?_) hothers.one
        rw [hkey, (hothers.head s hs).2]
        exact fun hvariant => hnone _ (hothers.head s hs).1 hvariant.symm
      case all =>
        intro a ha
        rw [← cons_append, mem_append] at ha
        rcases ha with ha | ha
        · refine ⟨_, mem_cons_self, ?_⟩
          rw [hkey]
          exact (hsub a ha).2
        · obtain ⟨s, hs, has⟩ := hothers.all a ha
          exact ⟨s, mem_cons_of_mem _ hs, has⟩
      case head =>
        rw [forall_mem_cons]
        refine ⟨⟨mem_cons_self, hkey⟩, fun s hs => ⟨?_, (hothers.head s hs).2⟩⟩
        exact mem_cons_of_mem h (mem_append_right _ (hothers.head s hs).1)
      case group =>
        rw [forall_mem_cons]
        refine ⟨⟨cons_ne_nil _ _, ?_⟩, hothers.group⟩
        rw [hkey, hclass]
      case shared =>
        rw [forall_mem_cons]
        refine ⟨fun a ha => ?_, hothers.shared⟩
        obtain ⟨ρ, hρ, hother, hvars⟩ := hjoined.shared a ha
        refine ⟨ρ, by rw [hkey, hρ], ?_, hother⟩
        exact subst_rename fun v hv => hvars v (mem_append_right _ hv)

omit [LinearOrder F] in
theorem Answer.key_eq_nil (a : Answer F 0) : a.key = .nil := by
  have hlen := a.length_key
  cases hkey : a.key with
  | nil => rfl
  | var v rest | app f args rest => rw [hkey] at hlen; cases hlen

omit [LinearOrder F] in
/-- Without free variables there is one class. -/
theorem groups_all (answers : List (Answer F 0)) : GroupsAnswers answers (wholeBag answers) := by
  cases answers with
  | nil => exact ⟨List.Pairwise.nil, by simp, nofun, nofun⟩
  | cons a l =>
    have hkey : (⟨a, a :: l, unbound⟩ : Solution F 0).key = .nil := by
      rw [Solution.key, a.key_eq_nil]
      rfl
    have hvariant : ∀ b ∈ a :: l, Variant b.key (.nil : Tuple F Nat) := by
      intro b _
      rw [b.key_eq_nil]
      exact Variant.refl _
    constructor
    case one => exact pairwise_singleton _ _
    case all => exact fun b hb => ⟨_, mem_singleton_self _, hkey ▸ hvariant b hb⟩
    case group =>
      intro s hs
      rw [mem_singleton.mp hs, hkey, classOf_self hvariant]
      exact ⟨cons_ne_nil _ _, rfl⟩
    case shared =>
      intro s hs b _
      rw [mem_singleton.mp hs, hkey, b.key_eq_nil]
      exact ⟨id, rfl, by rw [rename_id]; exact subst_self fun _ _ => rfl, fun _ _ => rfl⟩

theorem separated_all (answers : List (Answer F 0)) : Separated S fuel answers := by
  constructor
  case between =>
    intro a _ b _ c _ _ hac
    rw [a.key_eq_nil, c.key_eq_nil] at hac
    exact absurd hac (lt_irrefl _)
  case next =>
    intro l1 h l2 heq _ b _ hgreater
    have hh := hgreater h (mem_classOf.mpr ⟨by rw [heq]; simp, Variant.refl _⟩)
    rw [b.key_eq_nil, h.key_eq_nil] at hh
    exact absurd hh (lt_irrefl _)

/-- Merge sort by the keys. -/
def mergeKeysort (l : List (Answer F n)) : List (Answer F n) :=
  l.mergeSort fun a b => decide (codes a.key ≤ codes b.key)

theorem mergeKeysort_isKeysort : IsKeysort (mergeKeysort (F := F) (n := n)) where
  perm l := mergeSort_perm l _
  sorted l := (Library.mergeSort_key (fun a : Answer F n => codes a.key) l).1
  stable l k := by
    rw [mergeKeysort]
    convert (Library.mergeSort_key (fun a : Answer F n => codes a.key) l).2 k

end

/-! ### Examples -/

/-- The function symbols of some terms. -/
def functors : Tuple F Nat → List F
  | .nil => []
  | .var _ rest => functors rest
  | .app f args rest => f :: (functors args ++ functors rest)

theorem functors_rename (ρ : Nat → Nat) (t : Tuple F Nat) :
    functors (t.rename ρ) = functors t := by
  induction t with
  | nil => rfl
  | var v rest ih => exact ih
  | app f args rest ihargs ih => rw [Tuple.rename, functors, functors, ihargs, ih]

theorem Variant.functors_eq {t t' : Tuple F Nat} (h : Variant t t') :
    functors t = functors t' := by
  obtain ⟨ρ, -, rfl, -⟩ := h
  exact (functors_rename ρ t).symm

/-- The symbols of the examples: numbers, and the names of functors. -/
abbrev Name := ℕ ⊕ₗ ℕ

def nameSymbols : Symbols Name where
  isStr f := (ofLex f).isRight
  varName := toLex (.inr 0)
  int i := toLex (.inl i)
  isStr_varName := rfl
  isStr_int _ := rfl

/-- A number. -/
def num (i : Nat) : Tuple Name Nat := .app (toLex (.inl i)) .nil .nil

/-- A structure. -/
def str (k : Nat) (args : Tuple Name Nat) : Tuple Name Nat := .app (toLex (.inr k)) args .nil

/-- `g(_,1)`, `g(_,2)`, `g(_,1)`. -/
def interleaved : List (Answer Name 1) :=
  [⟨str 1 (.var 0 (num 1)), num 7, rfl⟩, ⟨str 1 (.var 0 (num 2)), num 7, rfl⟩,
    ⟨str 1 (.var 0 (num 1)), num 7, rfl⟩]

/-- `X, X` and `X, s(0)`. -/
def numberedArgument : List (Answer Name 2) :=
  [⟨.var 0 (.var 0 .nil), num 7, rfl⟩, ⟨.var 0 (str 1 (num 0)), num 7, rfl⟩]

example : (bfindall 0 interleaved).map Answer.key =
    [str 1 (.var 0 (num 1)), str 1 (.var 1 (num 2)), str 1 (.var 2 (num 1))] := rfl

example : codes (str 1 (.var 0 (num 1))) < codes (str 1 (.var 1 (num 2))) := by decide

/-- Twice `X`, with the template `X`. -/
def sharedVariables : List (Answer Name 1) :=
  [⟨.var 0 .nil, .var 0 .nil, rfl⟩, ⟨.var 0 .nil, .var 0 .nil, rfl⟩]

end XSBEngine.Setof
