import XSBEngine.Calls.CallTerms

/-!
# The memory of a search

While a call is read its variables and the abstracted subterms lead to new variables. All other
cells are as they were when the call was made.
-/

namespace XSBEngine.Calls

open Function Library Terms.Machine XSBEngine.Terms XSBEngine.Tries

variable {k : Settings} {m₀ m m' : Machine} {args A A' : List Addr} {R R' : Set Addr}
  {c c' r r0 : Cell} {a b e x : Addr} {n ctr : Nat}

/-! ### Calls -/

/-- The cells of a call. -/
inductive Occurs (k : Settings) (mem : Memory) (args : List Addr) : Cell → Prop where
  | arg {a : Addr} : a ∈ args → Occurs k mem args (.ref a)
  | content {a : Addr} : Occurs k mem args (.ref a) → mem a ≠ .ref a → Occurs k mem args (mem a)
  | bound {a : Addr} : Occurs k mem args (.attv a) → mem a ≠ .ref a → Occurs k mem args (mem a)
  | child {c c' : Cell} : Occurs k mem args c → c' ∈ children k mem c → Occurs k mem args c'

/-- A cell in use, not one of the enumerator array. -/
def Old (m : Machine) (a : Addr) : Prop := m.Used a ∧ m.isStandardizedVariable a = false

/-- The memory is in order: pointers in the call lead to cells in use, and only cells tagged as
attributed variables lead to the VAR part of a free attributed variable. -/
structure Callable (k : Settings) (m : Machine) (args : List Addr) : Prop where
  ok : m.OK
  ref : ∀ a, Occurs k m.mem args (.ref a) → Old m a
  attv : ∀ a, Occurs k m.mem args (.attv a) → Old m a
  struct : ∀ a, Occurs k m.mem args (.struct a) → Old m a
  free : ∀ x, Occurs k m.mem args (.attv x) → m.mem x = .ref x → ¬ Occurs k m.mem args (.ref x)

/-- A cell that was not in use when the call was made, or one of the enumerator array. -/
def New (m₀ m : Machine) (a : Addr) : Prop := m.Used a ∧ ¬ Old m₀ a

/-! ### The memory -/

/-- The memory of a search that has overwritten the cells of `A` and has read the attributed
variables of `R`. -/
structure Sim (k : Settings) (m₀ : Machine) (args : List Addr) (m : Machine) (A : List Addr)
    (R : Set Addr) : Prop where
  ok : m.OK
  used : ∀ a, m₀.Used a → m.Used a
  array : ∀ i < m.numTrievars, ¬ Old m₀ (m.enumCell i)
  new : ∀ a, New m₀ m a → ∃ b, m.mem a = .ref b ∧ New m₀ m b
  keep : ∀ a, Old m₀ a → a ∉ A → m₀.mem a ≠ .ref a → m.mem a = m₀.mem a
  var : ∀ a, Old m₀ a → m₀.mem a = .ref a → m.mem a = .ref a ∨ ∃ b, m.mem a = .ref b ∧ New m₀ m b
  cut : ∀ a ∈ A, Old m₀ a ∧ m₀.mem a ≠ .ref a ∧ (∀ psc, m₀.mem a ≠ .functor psc) ∧
    ∃ b, m.mem a = .ref b ∧ New m₀ m b
  attv : ∀ x, Occurs k m₀.mem args (.attv x) → m₀.mem x = .ref x → (m.mem x = .ref x ↔ x ∉ R)

/-- What a search sees instead of a cell: the cell itself, or a new variable. -/
inductive Shows (k : Settings) (m₀ : Machine) (args : List Addr) (m : Machine) (R : Set Addr) :
    Cell → Cell → Prop where
  | const (tag : ConstTag) (val : Nat) : Shows k m₀ args m R (.const tag val) (.const tag val)
  | list (a : Addr) : Occurs k m₀.mem args (.list a) → Shows k m₀ args m R (.list a) (.list a)
  | struct (a : Addr) : Occurs k m₀.mem args (.struct a) →
      Shows k m₀ args m R (.struct a) (.struct a)
  | attv {x : Addr} : Occurs k m₀.mem args (.attv x) → m₀.mem x = .ref x → x ∉ R →
      Shows k m₀ args m R (.attv x) (.attv x)
  | var {a : Addr} : Occurs k m₀.mem args (.ref a) → m₀.mem a = .ref a → m.mem a = .ref a →
      Shows k m₀ args m R (.ref a) (.ref a)
  | bound {a b : Addr} : New m₀ m b → m.mem b = .ref b → Shows k m₀ args m R (.ref b) (.ref a)
  | known {x b : Addr} : New m₀ m b → m.mem b = .ref b → x ∈ R →
      Shows k m₀ args m R (.ref b) (.attv x)

/-- What is on the pdl stack for a cell of the call: the cell, or what was in it. -/
inductive Stands (k : Settings) (m₀ : Machine) (args : List Addr) (m : Machine) (A : List Addr) :
    Cell → Cell → Prop where
  | same {c : Cell} : Occurs k m₀.mem args c → Stands k m₀ args m A c c
  | content {a : Addr} : Occurs k m₀.mem args (.ref a) → a ∉ A → m₀.mem a ≠ .ref a →
      Stands k m₀ args m A (m₀.mem a) (.ref a)
  | bound {a b : Addr} : New m₀ m b → (a ∈ A ∨ a ∉ A ∧ m₀.mem a = .ref a) →
      Stands k m₀ args m A (.ref b) (.ref a)

section

variable (h : Sim k m₀ args m A R)
include h

/-- From a new cell only new cells are reached. -/
theorem Sim.deref_new (hb : New m₀ m b)
    (hd : deref m.mem n (.ref b) = some r) : ∃ b', r = .ref b' ∧ New m₀ m b' ∧
    m.mem b' = .ref b' := by
  induction n generalizing b with
  | zero => cases hd
  | succ n ih =>
    rw [deref] at hd
    split at hd
    next hself => exact ⟨b, (Option.some.inj hd).symm, hb, hself⟩
    next =>
      obtain ⟨b', hmem, hnew⟩ := h.new b hb
      rw [hmem] at hd
      exact ih hnew hd

/-- What a search sees. -/
theorem Sim.deref_occurs (hcall : Callable k m₀ args)
    (hc : Occurs k m₀.mem args c) (hd : deref m.mem n c = some r) :
    ∃ r0, Sees m₀.mem A c r0 ∧ Shows k m₀ args m R r r0 := by
  induction n generalizing c with
  | zero => cases hd
  | succ n ih =>
    -- an overwritten cell leads to a new variable
    have hcut : ∀ a ∈ A, ∀ n, deref m.mem (n + 1) (.ref a) = some r →
        ∃ b, r = .ref b ∧ New m₀ m b ∧ m.mem b = .ref b := by
      intro a ha n hd
      obtain ⟨hold, -, -, b, hmem, hnew⟩ := h.cut a ha
      have hne : m.mem a ≠ .ref a := by
        rw [hmem]
        rintro ⟨⟩
        exact hnew.2 hold
      rw [deref, if_neg hne, hmem] at hd
      exact h.deref_new hnew hd
    cases c with
    | const tag val =>
      obtain rfl := Option.some.inj hd
      exact ⟨_, .const tag val, .const tag val⟩
    | list a =>
      obtain rfl := Option.some.inj hd
      exact ⟨_, .list a, .list a hc⟩
    | struct a =>
      obtain rfl := Option.some.inj hd
      exact ⟨_, .struct a, .struct a hc⟩
    | functor psc => cases hd
    | ref a =>
      by_cases ha : a ∈ A
      · obtain ⟨b, rfl, hnew, hself⟩ := hcut a ha n hd
        exact ⟨.ref a, .cut ha, .bound hnew hself⟩
      · have hold := hcall.ref a hc
        by_cases hself0 : m₀.mem a = .ref a
        · rcases h.var a hold hself0 with hself | ⟨b, hmem, hnew⟩
          · rw [deref, if_pos hself] at hd
            obtain rfl := Option.some.inj hd
            exact ⟨_, .var ha hself0, .var hc hself0 hself⟩
          · have hne : m.mem a ≠ .ref a := by
              rw [hmem]
              rintro ⟨⟩
              exact hnew.2 hold
            rw [deref, if_neg hne, hmem] at hd
            obtain ⟨b', rfl, hnew', hself'⟩ := h.deref_new hnew hd
            exact ⟨.ref a, .var ha hself0, .bound hnew' hself'⟩
        · have hmem := h.keep a hold ha hself0
          rw [deref, hmem, if_neg hself0] at hd
          obtain ⟨r0, hsees, hshows⟩ := ih (hc.content hself0) hd
          exact ⟨r0, .ref ha hself0 hsees, hshows⟩
    | attv a =>
      have hold := hcall.attv a hc
      by_cases hself0 : m₀.mem a = .ref a
      · by_cases hR : a ∈ R
        · have hne : m.mem a ≠ .ref a := fun hself => (h.attv a hc hself0).mp hself hR
          rcases h.var a hold hself0 with hself | ⟨b, hmem, hnew⟩
          · exact absurd hself hne
          · rw [deref, if_neg hne, hmem] at hd
            obtain ⟨b', rfl, hnew', hself'⟩ := h.deref_new hnew hd
            exact ⟨.attv a, .attv hself0, .known hnew' hself' hR⟩
        · have hself := (h.attv a hc hself0).mpr hR
          rw [deref, if_pos hself] at hd
          obtain rfl := Option.some.inj hd
          exact ⟨_, .attv hself0, .attv hc hself0 hR⟩
      · by_cases ha : a ∈ A
        · obtain ⟨hold, -, -, b, hmem, hnew⟩ := h.cut a ha
          have hne : m.mem a ≠ .ref a := by
            rw [hmem]
            rintro ⟨⟩
            exact hnew.2 hold
          rw [deref, if_neg hne, hmem] at hd
          obtain ⟨b', rfl, hnew', hself'⟩ := h.deref_new hnew hd
          exact ⟨.ref a, .bound hself0 (.cut ha), .bound hnew' hself'⟩
        · have hmem := h.keep a hold ha hself0
          rw [deref, hmem, if_neg hself0] at hd
          obtain ⟨r0, hsees, hshows⟩ := ih (hc.bound hself0) hd
          exact ⟨r0, .bound hself0 (.ref ha hself0 hsees), hshows⟩

theorem Sim.deref_stands (hcall : Callable k m₀ args)
    (hc : Stands k m₀ args m A c' c) (hd : deref m.mem n c' = some r) :
    ∃ r0, Sees m₀.mem A c r0 ∧ Shows k m₀ args m R r r0 := by
  cases hc with
  | same hc => exact h.deref_occurs hcall hc hd
  | @content a ha hcut hne =>
    obtain ⟨r0, hsees, hshows⟩ := h.deref_occurs hcall (ha.content hne) hd
    exact ⟨r0, .ref hcut hne hsees, hshows⟩
  | @bound a b hb ha =>
    obtain ⟨b', rfl, hnew, hself⟩ := h.deref_new hb hd
    rcases ha with ha | ⟨hna, hself0⟩
    · exact ⟨.ref a, .cut ha, .bound hnew hself⟩
    · exact ⟨.ref a, .var hna hself0, .bound hnew hself⟩

/-- What is read from the cell of an argument. -/
theorem Sim.stands_mem (hcall : Callable k m₀ args)
    (ha : Occurs k m₀.mem args (.ref a)) : Stands k m₀ args m A (m.mem a) (.ref a) := by
  have hold := hcall.ref a ha
  by_cases hcut : a ∈ A
  · obtain ⟨-, -, -, b, hmem, hnew⟩ := h.cut a hcut
    rw [hmem]
    exact .bound hnew (Or.inl hcut)
  · by_cases hself0 : m₀.mem a = .ref a
    · rcases h.var a hold hself0 with hself | ⟨b, hmem, hnew⟩
      · rw [hself]
        exact .same ha
      · rw [hmem]
        exact .bound hnew (Or.inr ⟨hcut, hself0⟩)
    · rw [h.keep a hold hcut hself0]
      exact .content ha hcut hself0

/-- The functor of a structure stays. -/
theorem Sim.functor (hold : Old m₀ a) (psc : Nat) :
    m.mem a = .functor psc ↔ m₀.mem a = .functor psc := by
  by_cases hcut : a ∈ A
  · obtain ⟨-, -, hnot, b, hmem, -⟩ := h.cut a hcut
    rw [hmem]
    exact iff_of_false Cell.noConfusion (hnot psc)
  · by_cases hself0 : m₀.mem a = .ref a
    · rw [hself0]
      refine iff_of_false ?_ Cell.noConfusion
      rcases h.var a hold hself0 with hself | ⟨b, hmem, -⟩
      · rw [hself]
        exact Cell.noConfusion
      · rw [hmem]
        exact Cell.noConfusion
    · rw [h.keep a hold hcut hself0]

end

/-! ### Changes of the memory -/

theorem Stands.mono (h : Stands k m₀ args m A c' c) (hused : ∀ a, m.Used a → m'.Used a) :
    Stands k m₀ args m' A c' c := by
  cases h with
  | same hc => exact .same hc
  | content ha hcut hne => exact .content ha hcut hne
  | bound hb ha => exact .bound ⟨hused _ hb.1, hb.2⟩ ha

/-- The memory when the call is made. -/
theorem Callable.sim (h : Callable k m args) : Sim k m args m [] ∅ where
  ok := h.ok
  used _ ha := ha
  array i hi hold := Bool.noConfusion ((enumCell_standardized hi).symm.trans hold.2)
  new a ha := by
    have hstd : m.isStandardizedVariable a = true := by
      by_contra hnot
      exact ha.2 ⟨ha.1, Bool.not_eq_true _ ▸ hnot⟩
    refine ⟨a, ?_, ha⟩
    obtain ⟨harea, hle, hlt⟩ := isStandardized_iff.mp hstd
    have hpos := h.ok.pos
    have heq : m.enumCell (a.pos - m.varEnumerator) = a := by
      obtain ⟨area, pos⟩ := a
      simp only [enumCell] at harea hle ⊢
      rw [harea, Nat.add_sub_cancel' hle]
    rw [← heq]
    exact h.ok.cells _ (by omega)
  keep _ _ _ _ := rfl
  var _ _ hself := Or.inl hself
  cut _ ha := absurd ha List.not_mem_nil
  attv x _ hself := iff_of_true hself (Set.notMem_empty x)

/-- A new array of variables. -/
theorem Sim.expand (h : Sim k m₀ args m A R) (hcall : Callable k m₀ args) :
    Sim k m₀ args m.expandVarenumerators A R := by
  have hused : ∀ a, m₀.Used a → m.Used a := h.used
  have hmem : ∀ a, Old m₀ a → m.expandVarenumerators.mem a = m.mem a :=
    fun a ha => mem_expand (hused a ha.1)
  have hnew : ∀ b, New m₀ m b → New m₀ m.expandVarenumerators b :=
    fun b hb => ⟨used_expand hb.1, hb.2⟩
  constructor
  case ok =>
    have hpos := h.ok.pos
    refine ⟨Nat.mul_pos Nat.two_pos hpos, le_rfl, fun i hi => ?_⟩
    simp only [expandVarenumerators, enumCell] at hi ⊢
    rw [if_pos]
    exact ⟨trivial, by omega, by omega⟩
  case used => exact fun a ha => used_expand (hused a ha)
  case array =>
    intro i _ hold
    have hu := hused _ hold.1
    simp only [Used, enumCell, expandVarenumerators] at hu
    omega
  case new =>
    intro a ha
    by_cases hu : m.Used a
    · obtain ⟨b, hb, hnewb⟩ := h.new a ⟨hu, ha.2⟩
      exact ⟨b, (mem_expand hu).trans hb, hnew b hnewb⟩
    · refine ⟨a, ?_, ha⟩
      have hu' := ha.1
      simp only [expandVarenumerators]
      rw [if_pos]
      cases harea : a.area with
      | localStack => exact absurd (by simp [Used, harea]) hu
      | heap =>
        simp only [Used, harea, expandVarenumerators] at hu hu'
        exact absurd hu' hu
      | tableSpace =>
        simp only [Used, harea, expandVarenumerators] at hu hu'
        exact ⟨rfl, by omega, by omega⟩
  case keep => exact fun a hold hcut hne => (hmem a hold).trans (h.keep a hold hcut hne)
  case var =>
    intro a hold hself0
    rw [hmem a hold]
    exact (h.var a hold hself0).imp id (.imp fun b hb => ⟨hb.1, hnew b hb.2⟩)
  case cut =>
    intro a ha
    obtain ⟨hold, hne, hfunctor, b, hb, hnewb⟩ := h.cut a ha
    exact ⟨hold, hne, hfunctor, b, (hmem a hold).trans hb, hnew b hnewb⟩
  case attv =>
    intro x hx hself0
    rw [hmem x (hcall.attv x hx)]
    exact h.attv x hx hself0

/-- A cell gets a reference to a new one: a free variable, or one that is abstracted. -/
theorem Sim.write (A' : List Addr) (R' : Set Addr) (h : Sim k m₀ args m A R)
    (hcall : Callable k m₀ args) (he : New m₀ m e)
    (hb : m.isStandardizedVariable b = false) (hsub : ∀ a ∈ A, a ∈ A')
    (hA : ∀ a ∈ A', a ∈ A ∨ a = b)
    (hcut : b ∈ A' → Old m₀ b ∧ m₀.mem b ≠ .ref b ∧ ∀ psc, m₀.mem b ≠ .functor psc)
    (hold : Old m₀ b → b ∈ A' ∨ m₀.mem b = .ref b)
    (hR : ∀ x, Occurs k m₀.mem args (.attv x) → m₀.mem x = .ref x →
      (x ∈ R' ↔ x ∈ R ∨ x = b)) : Sim k m₀ args (m.write b (.ref e)) A' R' := by
  have hself : (m.write b (.ref e)).mem b = .ref e := update_self ..
  have hmem : ∀ a, a ≠ b → (m.write b (.ref e)).mem a = m.mem a :=
    fun a hne => update_of_ne hne ..
  constructor
  case ok =>
    refine ⟨h.ok.pos, h.ok.array, fun i hi => ?_⟩
    exact (hmem _ (ne_enumCell hb hi)).trans (h.ok.cells i hi)
  case used => exact h.used
  case array => exact h.array
  case new =>
    intro a ha
    rcases eq_or_ne a b with rfl | hne
    · exact ⟨e, hself, he⟩
    · rw [hmem a hne]
      exact h.new a ha
  case keep =>
    intro a holda hnotin hne0
    have hne : a ≠ b := by
      rintro rfl
      rcases hold holda with hin | hself0
      · exact hnotin hin
      · exact hne0 hself0
    rw [hmem a hne]
    exact h.keep a holda (fun ha => hnotin (hsub a ha)) hne0
  case var =>
    intro a holda hself0
    rcases eq_or_ne a b with rfl | hne
    · exact Or.inr ⟨e, hself, he⟩
    · rw [hmem a hne]
      exact h.var a holda hself0
  case cut =>
    intro a ha
    rcases eq_or_ne a b with rfl | hne
    · obtain ⟨holda, hne0, hfunctor⟩ := hcut ha
      exact ⟨holda, hne0, hfunctor, e, hself, he⟩
    · rw [hmem a hne]
      exact h.cut a ((hA a ha).resolve_right hne)
  case attv =>
    intro x hx hself0
    rw [hR x hx hself0]
    rcases eq_or_ne x b with rfl | hne
    · refine iff_of_false ?_ fun hnot => hnot (Or.inr rfl)
      rw [hself]
      rintro ⟨⟩
      exact he.2 (hcall.attv e hx)
    · rw [hmem x hne, h.attv x hx hself0]
      simp [hne]

/-- A new variable on the heap. -/
theorem Sim.newHeapFree (h : Sim k m₀ args m A R) (hcall : Callable k m₀ args) :
    Sim k m₀ args (CallSearch.newHeapFree m) A R ∧
      New m₀ (CallSearch.newHeapFree m) ⟨.heap, m.hreg⟩ ∧
      ∀ a, m.Used a → (CallSearch.newHeapFree m).Used a := by
  have hfresh : ¬ m.Used ⟨.heap, m.hreg⟩ := by simp [Used]
  have hused : ∀ a, m.Used a → (CallSearch.newHeapFree m).Used a := by
    intro a ha
    unfold Used at ha ⊢
    split at ha
    next => trivial
    next => exact Nat.lt_succ_of_lt ha
    next => exact ha
  have hmem : ∀ a, m.Used a → (CallSearch.newHeapFree m).mem a = m.mem a := by
    intro a ha
    apply update_of_ne
    rintro rfl
    exact hfresh ha
  have hold : ∀ a, Old m₀ a → (CallSearch.newHeapFree m).mem a = m.mem a :=
    fun a ha => hmem a (h.used a ha.1)
  have hnew : ∀ b, New m₀ m b → New m₀ (CallSearch.newHeapFree m) b :=
    fun b hb => ⟨hused b hb.1, hb.2⟩
  have hself : New m₀ (CallSearch.newHeapFree m) ⟨.heap, m.hreg⟩ :=
    ⟨Nat.lt_succ_self m.hreg, fun hold => hfresh (h.used _ hold.1)⟩
  refine ⟨?_, hself, hused⟩
  constructor
  case ok =>
    refine ⟨h.ok.pos, h.ok.array, fun i hi => ?_⟩
    have hi' : i < m.numTrievars := hi
    have harray := h.ok.array
    have hu : m.Used (m.enumCell i) := by
      simp only [Used, enumCell]
      omega
    exact (hmem _ hu).trans (h.ok.cells i hi')
  case used => exact fun a ha => hused a (h.used a ha)
  case array => exact h.array
  case new =>
    intro a ha
    rcases eq_or_ne a ⟨.heap, m.hreg⟩ with rfl | hne
    · exact ⟨_, update_self .., hself⟩
    · have hu : m.Used a := by
        have hu := ha.1
        unfold Used at hu ⊢
        split at hu
        next => trivial
        next harea =>
          refine lt_of_le_of_ne (Nat.le_of_lt_succ hu) fun heq => hne ?_
          cases a
          simp only at harea heq
          rw [harea, heq]
        next => exact hu
      obtain ⟨b, hb, hnewb⟩ := h.new a ⟨hu, ha.2⟩
      exact ⟨b, (hmem a hu).trans hb, hnew b hnewb⟩
  case keep => exact fun a holda hcut hne => (hold a holda).trans (h.keep a holda hcut hne)
  case var =>
    intro a holda hself0
    rw [hold a holda]
    exact (h.var a holda hself0).imp id (.imp fun b hb => ⟨hb.1, hnew b hb.2⟩)
  case cut =>
    intro a ha
    obtain ⟨holda, hne, hfunctor, b, hb, hnewb⟩ := h.cut a ha
    exact ⟨holda, hne, hfunctor, b, (hold a holda).trans hb, hnew b hnewb⟩
  case attv =>
    intro x hx hself0
    rw [hold x (hcall.attv x hx)]
    exact h.attv x hx hself0

theorem Sim.trail (h : Sim k m₀ args m A R) (l : List Addr) :
    Sim k m₀ args { m with trail := l } A R :=
  ⟨⟨h.ok.pos, h.ok.array, h.ok.cells⟩, h.used, h.array, h.new, h.keep, h.var, h.cut, h.attv⟩

theorem not_standardized_expand (hu : m.Used a) :
    m.expandVarenumerators.isStandardizedVariable a = false := by
  rw [Bool.eq_false_iff, ne_eq, isStandardized_iff]
  rintro ⟨harea, hle, -⟩
  simp only [Used, harea] at hu
  simp only [expandVarenumerators] at hle
  omega

/-- A free variable gets a cell of the enumerator array. -/
theorem Sim.standardizeVariable (R' : Set Addr) (h : Sim k m₀ args m A R)
    (hcall : Callable k m₀ args)
    (hctr : ctr ≤ m.numTrievars) (hu : m.Used b) (hb : m.isStandardizedVariable b = false)
    (hold : Old m₀ b → m₀.mem b = .ref b)
    (hR : ∀ x, Occurs k m₀.mem args (.attv x) → m₀.mem x = .ref x →
      (x ∈ R' ↔ x ∈ R ∨ x = b)) :
    Sim k m₀ args (m.standardizeVariable b ctr) A R' ∧
      ctr + 1 ≤ (m.standardizeVariable b ctr).numTrievars ∧
      ∀ a, m.Used a → (m.standardizeVariable b ctr).Used a := by
  -- the array is large enough then
  obtain ⟨m1, heq, hm1, hb1, hlt, hused⟩ : ∃ m1,
      m.standardizeVariable b ctr = m1.write b (m1.mem (m1.enumCell ctr)) ∧
      Sim k m₀ args m1 A R ∧ m1.isStandardizedVariable b = false ∧ ctr < m1.numTrievars ∧
      ∀ a, m.Used a → m1.Used a := by
    by_cases hlt : ctr < m.numTrievars
    · refine ⟨m, ?_, h, hb, hlt, fun a ha => ha⟩
      rw [Machine.standardizeVariable, if_pos hlt]
    · refine ⟨m.expandVarenumerators, ?_, h.expand hcall, not_standardized_expand hu, ?_,
        fun a ha => used_expand ha⟩
      · rw [Machine.standardizeVariable, if_neg hlt]
      · have hpos := h.ok.pos
        simp only [expandVarenumerators]
        omega
  have hnew : New m₀ m1 (m1.enumCell ctr) := by
    refine ⟨?_, hm1.array ctr hlt⟩
    have harray := hm1.ok.array
    simp only [Used, enumCell]
    omega
  rw [heq, hm1.ok.cells ctr hlt]
  refine ⟨hm1.write A R' hcall hnew hb1 (fun a ha => ha) (fun a ha => Or.inl ha) (fun ha => ?_)
    (fun hbold => Or.inr (hold hbold)) hR, hlt, hused⟩
  obtain ⟨hbold, hne, hfunctor, -⟩ := hm1.cut b ha
  exact ⟨hbold, hne, hfunctor⟩

/-- A cell of the call is not one of the enumerator array. -/
theorem Sim.not_standardized (h : Sim k m₀ args m A R) (hold : Old m₀ x) :
    m.isStandardizedVariable x = false := by
  by_contra hnot
  rw [Bool.not_eq_false, isStandardized_iff] at hnot
  obtain ⟨harea, hle, hlt⟩ := hnot
  have hpos := h.ok.pos
  have heq : m.enumCell (x.pos - m.varEnumerator) = x := by
    obtain ⟨area, pos⟩ := x
    simp only [enumCell] at harea hle ⊢
    rw [harea, Nat.add_sub_cancel' hle]
  refine h.array (x.pos - m.varEnumerator) (by omega) ?_
  rw [heq]
  exact hold

/-- A variable that no attributed variable is. -/
def Plain (k : Settings) (m₀ : Machine) (args : List Addr) (m : Machine) (b : Addr) : Prop :=
  m.mem b = .ref b ∧ (New m₀ m b ∨ Occurs k m₀.mem args (.ref b) ∧ m₀.mem b = .ref b)

theorem Shows.plain (h : Shows k m₀ args m R (.ref b) r0) : Plain k m₀ args m b := by
  cases h with
  | var hb hself0 hself => exact ⟨hself, Or.inr ⟨hb, hself0⟩⟩
  | bound hb hself | known hb hself _ => exact ⟨hself, Or.inl hb⟩

theorem Plain.used (h : Plain k m₀ args m b) (hsim : Sim k m₀ args m A R)
    (hcall : Callable k m₀ args) : m.Used b := by
  rcases h.2 with hb | ⟨hb, -⟩
  · exact hb.1
  · exact hsim.used b (hcall.ref b hb).1

theorem Plain.old (h : Plain k m₀ args m b) (hold : Old m₀ b) : m₀.mem b = .ref b := by
  rcases h.2 with hb | ⟨-, hself0⟩
  · exact absurd hold hb.2
  · exact hself0

theorem Plain.attv (h : Plain k m₀ args m b) (hcall : Callable k m₀ args) (x : Addr)
    (hx : Occurs k m₀.mem args (.attv x)) (hself0 : m₀.mem x = .ref x) : x ∈ R ↔ x ∈ R ∨ x = b := by
  have hne : x ≠ b := by
    rintro rfl
    rcases h.2 with hb | ⟨hb, -⟩
    · exact hb.2 (hcall.attv x hx)
    · exact hcall.free x hx hself0 hb
  simp [hne]

/-- A variable on the local stack becomes one on the heap. -/
theorem Sim.globalize (h : Sim k m₀ args m A R) (hcall : Callable k m₀ args)
    (hb : m.isStandardizedVariable b = false) (hshows : Shows k m₀ args m R (.ref b) r0) :
    Sim k m₀ args (CallSearch.globalize m b).1 A R ∧
      Shows k m₀ args (CallSearch.globalize m b).1 R (.ref (CallSearch.globalize m b).2) r0 ∧
      (CallSearch.globalize m b).1.numTrievars = m.numTrievars ∧
      ∀ a, m.Used a → (CallSearch.globalize m b).1.Used a := by
  by_cases harea : b.area = .localStack
  case neg =>
    rw [CallSearch.globalize, if_neg harea]
    exact ⟨h, hshows, rfl, fun a ha => ha⟩
  case pos =>
    rw [CallSearch.globalize, if_pos harea]
    have hplain := hshows.plain
    obtain ⟨hheap, hnew, hused⟩ := h.newHeapFree hcall
    have hwrite := hheap.write A R hcall hnew hb (fun a ha => ha)
      (fun a ha => Or.inl ha) (fun ha => ?_) (fun hold => Or.inr (hplain.old hold))
      (hplain.attv hcall)
    · refine ⟨hwrite, ?_, rfl, hused⟩
      have hne : (⟨.heap, m.hreg⟩ : Addr) ≠ b := by
        rintro rfl
        exact Area.noConfusion harea
      have hself : (m.moveToHeap b).mem ⟨.heap, m.hreg⟩ = .ref ⟨.heap, m.hreg⟩ := by
        simp [moveToHeap, Terms.Machine.write, hne]
      cases hshows with
      | var _ _ _ | bound _ _ => exact .bound hnew hself
      | known _ _ hx => exact .known hnew hself hx
    · obtain ⟨hold, hne, hfunctor, -⟩ := h.cut b ha
      exact ⟨hold, hne, hfunctor⟩

end XSBEngine.Calls
