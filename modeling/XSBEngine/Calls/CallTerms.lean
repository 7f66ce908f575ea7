import Mathlib
import XSBEngine.Calls.VariantCall

/-!
# What a call contains

The subterms and attributed variables of the arguments of a call, as they are in memory when it is
made, where the cells of abstracted subterms count as variables.
-/

namespace XSBEngine.Calls

open Library List XSBEngine.Terms XSBEngine.Tries

variable {k : Settings} {mem : Memory} {A : List Addr} {c d r : Cell} {ws rest : List Cell}
  {R R' : Set Addr} {n : Nat} {a b x : Addr}

/-- What a cell dereferences to, if the cells of `A` have been overwritten by new variables. -/
inductive Sees (mem : Memory) (A : List Addr) : Cell → Cell → Prop where
  | cut {a : Addr} : a ∈ A → Sees mem A (.ref a) (.ref a)
  | var {a : Addr} : a ∉ A → mem a = .ref a → Sees mem A (.ref a) (.ref a)
  | ref {a : Addr} {r : Cell} : a ∉ A → mem a ≠ .ref a → Sees mem A (mem a) r →
      Sees mem A (.ref a) r
  | attv {a : Addr} : mem a = .ref a → Sees mem A (.attv a) (.attv a)
  | bound {a : Addr} {r : Cell} : mem a ≠ .ref a → Sees mem A (.ref a) r → Sees mem A (.attv a) r
  | const (tag : ConstTag) (val : Nat) : Sees mem A (.const tag val) (.const tag val)
  | list (a : Addr) : Sees mem A (.list a) (.list a)
  | struct (a : Addr) : Sees mem A (.struct a) (.struct a)

/-- The cells below a cell. -/
def children (k : Settings) (mem : Memory) : Cell → List Cell
  | .list a => if k.interned (.list a) then [] else [.ref a, .ref (a.plus 1)]
  | .struct a =>
    match mem a with
    | .functor psc =>
      if k.interned (.struct a) then [] else (strArgs a (k.arity psc)).map .ref
    | _ => []
  | .attv a => if mem a = .ref a then [.ref (a.plus 1)] else []
  | _ => []

/-- An attributed variable occurs below a cell, also in the attributes of another one. -/
inductive Reach (k : Settings) (mem : Memory) (A : List Addr) : Cell → Addr → Prop where
  | here {c : Cell} {x : Addr} : Sees mem A c (.attv x) → Reach k mem A c x
  | child {c r c' : Cell} {x : Addr} : Sees mem A c r → c' ∈ children k mem r →
      Reach k mem A c' x → Reach k mem A c x

/-- The n-th compound term, read from left to right, is that of the cell `d`, and the cells of
`rest` come after it. The attributes of an attributed variable are read where it is new: `R` are
those known at first, `R'` those known in the end. -/
inductive Nth (k : Settings) (mem : Memory) (A : List Addr) :
    Nat → Set Addr → List Cell → Set Addr → Cell → List Cell → Prop where
  | here {R : Set Addr} {c r : Cell} {ws : List Cell} : Sees mem A c r → r.isCompound →
      Nth k mem A 1 R (c :: ws) R c ws
  | compound {n : Nat} {R R' : Set Addr} {c r d : Cell} {ws rest : List Cell} :
      Sees mem A c r → r.isCompound → Nth k mem A n R (children k mem r ++ ws) R' d rest →
      Nth k mem A (n + 1) R (c :: ws) R' d rest
  | attv {n : Nat} {R R' : Set Addr} {c d : Cell} {x : Addr} {ws rest : List Cell} :
      Sees mem A c (.attv x) → x ∉ R →
      Nth k mem A n (insert x R) (.ref (x.plus 1) :: ws) R' d rest →
      Nth k mem A n R (c :: ws) R' d rest
  | skip {n : Nat} {R R' : Set Addr} {c r d : Cell} {ws rest : List Cell} :
      Sees mem A c r → r.isCompound = false → (∀ x, r = .attv x → x ∈ R) →
      Nth k mem A n R ws R' d rest → Nth k mem A n R (c :: ws) R' d rest

/-- Whether the cyclic check has been made for the call, the cells of the subterms that were
abstracted, and the attributed variables that were read. -/
structure Seen where
  second : Bool
  cuts : List Addr
  attvs : Set Addr

/-- A cell is read: the attributed variables known then, and the cells to be read. -/
inductive Advances (k : Settings) (mem : Memory) (A : List Addr) (R : Set Addr) (c : Cell)
    (ws : List Cell) : Set Addr → List Cell → Prop where
  | compound {r : Cell} : Sees mem A c r → r.isCompound →
      Advances k mem A R c ws R (children k mem r ++ ws)
  | attv {x : Addr} : Sees mem A c (.attv x) → x ∉ R →
      Advances k mem A R c ws (insert x R) (.ref (x.plus 1) :: ws)
  | skip {r : Cell} : Sees mem A c r → r.isCompound = false → (∀ x, r = .attv x → x ∈ R) →
      Advances k mem A R c ws R ws

/-- An argument is opened: the attributed variables known by then, and the cells below it. -/
def Opens (k : Settings) (mem : Memory) (S : Seen) (arg : Addr) (R : Set Addr) (ws : List Cell) :
    Prop :=
  Advances k mem S.cuts S.attvs (.ref arg) [] R ws

/-- The number of the compound term below an argument that exceeds the limit; there is none if it
is 0. After the cyclic check only its size is allowed. -/
def Settings.limitAt (k : Settings) (second : Bool) : Nat :=
  if k.cyclicCheckSize = 0 then 0
  else if second = false ∨ k.predSubgoalSizeLimit ≤ k.cyclicCheckSize then k.predSubgoalSizeLimit
  else k.cyclicCheckSize

/-- A call in which a subterm may be abstracted. -/
def Settings.Abstracts (k : Settings) : Prop := k.action = .abstract ∧ k.tnotCall = false

/-- The subterm of an argument that exceeds the limit, with what comes after it. -/
def Exceeds (k : Settings) (mem : Memory) (S : Seen) (arg a : Addr) (rest : List Cell) : Prop :=
  k.Abstracts ∧ ∃ ws, Opens k mem S arg S.attvs ws ∧
    Nth k mem S.cuts (k.limitAt S.second) S.attvs ws S.attvs (.ref a) rest

/-- The cyclic check is made in an argument, where it is not the first that fails. -/
def Checks (k : Settings) (mem : Memory) (S : Seen) (arg : Addr) : Prop :=
  k.cyclicCheckSize < k.predSubgoalSizeLimit ∧ ∃ R ws R' d rest, Opens k mem S arg R ws ∧
    Nth k mem S.cuts k.cyclicCheckSize R ws R' d rest

/-- One argument: nothing below it is abstracted, or the subterm that exceeds the limit. -/
inductive ReadsArg (k : Settings) (mem : Memory) (S : Seen) (arg : Addr) : Seen → Prop where
  | whole {second : Bool} : (∃ R ws, Opens k mem S arg R ws) →
      (∀ a rest, ¬ Exceeds k mem S arg a rest) →
      (second = true ↔ S.second = true ∨ Checks k mem S arg) →
      ReadsArg k mem S arg ⟨second, S.cuts, S.attvs ∪ {x | Reach k mem S.cuts (.ref arg) x}⟩
  | abstracted {second : Bool} {a : Addr} {rest : List Cell} : Exceeds k mem S arg a rest →
      (second = true ↔ S.second = true ∨ Checks k mem S arg) →
      ReadsArg k mem S arg ⟨second, a :: S.cuts,
        S.attvs ∪ {x | ∃ c ∈ rest, Reach k mem (a :: S.cuts) c x}⟩

/-- All arguments. -/
inductive ReadsArgs (k : Settings) (mem : Memory) : Seen → List Addr → Seen → Prop where
  | nil (S : Seen) : ReadsArgs k mem S [] S
  | cons {S T U : Seen} {arg : Addr} {args : List Addr} : ReadsArg k mem S arg T →
      ReadsArgs k mem T args U → ReadsArgs k mem S (arg :: args) U

/-- Before the first argument. -/
def Seen.start : Seen := ⟨false, [], ∅⟩

/-! ### There is one way to read a call -/

theorem Sees.unique {r r' : Cell} (h : Sees mem A c r) (h' : Sees mem A c r') : r = r' := by
  induction h with
  | cut ha =>
    cases h' with
    | cut _ | var _ _ => rfl
    | ref hna _ _ => exact absurd ha hna
  | var hna hself =>
    cases h' with
    | cut _ | var _ _ => rfl
    | ref _ hne _ => exact absurd hself hne
  | ref hna hne _ ih =>
    cases h' with
    | cut ha => exact absurd ha hna
    | var _ hself => exact absurd hself hne
    | ref _ _ h' => exact ih h'
  | attv hself =>
    cases h' with
    | attv _ => rfl
    | bound hne _ => exact absurd hself hne
  | bound hne _ ih =>
    cases h' with
    | attv hself => exact absurd hself hne
    | bound _ h' => exact ih h'
  | const tag val | list a | struct a =>
    cases h'
    rfl

theorem Nth.pos (h : Nth k mem A n R ws R' d rest) : 0 < n := by
  induction h with
  | here => exact Nat.one_pos
  | compound => exact Nat.succ_pos _
  | attv _ _ _ ih | skip _ _ _ _ ih => exact ih

theorem not_nth_nil : ¬ Nth k mem A n R [] R' d rest := by
  intro h
  cases h

section

variable (h : Nth k mem A n R (c :: ws) R' d rest)
include h

theorem Nth.at_compound (hc : Sees mem A c r)
    (hr : r.isCompound) :
    n = 1 ∧ R' = R ∧ d = c ∧ rest = ws ∨
      ∃ i, n = i + 1 ∧ Nth k mem A i R (children k mem r ++ ws) R' d rest := by
  cases h with
  | here => exact Or.inl ⟨rfl, rfl, rfl, rfl⟩
  | compound hc' _ h =>
    obtain rfl := hc.unique hc'
    exact Or.inr ⟨_, rfl, h⟩
  | attv hc' =>
    obtain rfl := hc.unique hc'
    cases hr
  | skip hc' hr' =>
    obtain rfl := hc.unique hc'
    cases hr.symm.trans hr'

theorem Nth.at_attv (hc : Sees mem A c (.attv x))
    (hx : x ∉ R) : Nth k mem A n (insert x R) (.ref (x.plus 1) :: ws) R' d rest := by
  cases h with
  | here hc' hr | compound hc' hr =>
    obtain rfl := hc.unique hc'
    cases hr
  | attv hc' _ h =>
    obtain rfl := Cell.attv.inj (hc.unique hc')
    exact h
  | skip hc' _ hknown =>
    exact absurd (hknown x (hc.unique hc').symm) hx

theorem Nth.at_skip (hc : Sees mem A c r)
    (hr : r.isCompound = false) (hknown : ∀ x, r = .attv x → x ∈ R) :
    Nth k mem A n R ws R' d rest := by
  cases h with
  | here hc' hr' | compound hc' hr' =>
    obtain rfl := hc.unique hc'
    cases hr.symm.trans hr'
  | attv hc' hx => exact absurd (hknown _ (hc.unique hc')) hx
  | skip _ _ _ h => exact h

end

theorem Nth.unique {R1 R2 : Set Addr} {d1 d2 : Cell} {rest1 rest2 : List Cell}
    (h : Nth k mem A n R ws R1 d1 rest1) (h' : Nth k mem A n R ws R2 d2 rest2) :
    R1 = R2 ∧ d1 = d2 ∧ rest1 = rest2 := by
  induction h with
  | here hc hr =>
    rcases h'.at_compound hc hr with ⟨-, rfl, rfl, rfl⟩ | ⟨i, heq, h'⟩
    · exact ⟨rfl, rfl, rfl⟩
    · have hpos := h'.pos
      omega
  | compound hc hr h ih =>
    rcases h'.at_compound hc hr with ⟨heq, -, -, -⟩ | ⟨i, heq, h'⟩
    · have hpos := h.pos
      omega
    · obtain rfl := Nat.succ.inj heq
      exact ih h'
  | attv hc hx _ ih => exact ih (h'.at_attv hc hx)
  | skip hc hr hknown _ ih => exact ih (h'.at_skip hc hr hknown)

theorem Advances.unique {R0 : Set Addr} {ws0 ws' : List Cell} (h : Advances k mem A R0 c ws0 R ws)
    (h' : Advances k mem A R0 c ws0 R' ws') : R = R' ∧ ws = ws' := by
  cases h with
  | compound hc hr =>
    cases h' with
    | compound hc' _ =>
      obtain rfl := hc.unique hc'
      exact ⟨rfl, rfl⟩
    | attv hc' _ =>
      obtain rfl := hc.unique hc'
      cases hr
    | skip hc' hr' _ =>
      obtain rfl := hc.unique hc'
      cases hr.symm.trans hr'
  | attv hc hx =>
    cases h' with
    | compound hc' hr' =>
      obtain rfl := hc.unique hc'
      cases hr'
    | attv hc' _ =>
      obtain rfl := Cell.attv.inj (hc.unique hc')
      exact ⟨rfl, rfl⟩
    | skip hc' _ hknown => exact absurd (hknown _ (hc.unique hc').symm) hx
  | skip hc hr hknown =>
    cases h' with
    | compound hc' hr' =>
      obtain rfl := hc.unique hc'
      cases hr.symm.trans hr'
    | attv hc' hx => exact absurd (hknown _ (hc.unique hc')) hx
    | skip _ _ _ => exact ⟨rfl, rfl⟩

/-- What comes after a cell that is not a compound term. -/
theorem Advances.nth_iff {i : Nat} {R1 : Set Addr} {ws1 : List Cell}
    (h : Advances k mem A R c ws R1 ws1) (hc : Sees mem A c r) (hr : r.isCompound = false) :
    Nth k mem A i R1 ws1 R' d rest ↔ Nth k mem A i R (c :: ws) R' d rest := by
  cases h with
  | compound hc' hr' =>
    obtain rfl := hc.unique hc'
    cases hr.symm.trans hr'
  | attv hc' hx => exact ⟨.attv hc' hx, fun h => h.at_attv hc' hx⟩
  | skip hc' hr' hknown => exact ⟨.skip hc' hr' hknown, fun h => h.at_skip hc' hr' hknown⟩

/-- What comes after a compound term. -/
theorem nth_compound_iff {i : Nat} (hc : Sees mem A c r) (hr : r.isCompound) (hi : 0 < i) :
    Nth k mem A i R (children k mem r ++ ws) R' d rest ↔
      Nth k mem A (i + 1) R (c :: ws) R' d rest := by
  constructor
  case mp => exact .compound hc hr
  case mpr =>
    intro h
    rcases h.at_compound hc hr with ⟨heq, -, -, -⟩ | ⟨j, heq, h⟩
    · omega
    · obtain rfl := Nat.succ.inj heq
      exact h

theorem Exceeds.unique {S : Seen} {arg : Addr} {rest' : List Cell}
    (h : Exceeds k mem S arg a rest) (h' : Exceeds k mem S arg b rest') : a = b ∧ rest = rest' := by
  obtain ⟨-, ws, hopens, hnth⟩ := h
  obtain ⟨-, ws', hopens', hnth'⟩ := h'
  obtain ⟨-, rfl⟩ := hopens.unique hopens'
  obtain ⟨-, hd, hrest⟩ := hnth.unique hnth'
  exact ⟨Cell.ref.inj hd, hrest⟩

theorem ReadsArg.unique {S T T' : Seen} {arg : Addr} (h : ReadsArg k mem S arg T)
    (h' : ReadsArg k mem S arg T') : T = T' := by
  cases h with
  | whole _ hnone hsecond =>
    cases h' with
    | whole _ _ hsecond' => rw [Bool.eq_iff_iff.mpr (hsecond.trans hsecond'.symm)]
    | abstracted hexceeds _ => exact absurd hexceeds (hnone _ _)
  | abstracted hexceeds hsecond =>
    cases h' with
    | whole _ hnone _ => exact absurd hexceeds (hnone _ _)
    | abstracted hexceeds' hsecond' =>
      obtain ⟨rfl, rfl⟩ := hexceeds.unique hexceeds'
      rw [Bool.eq_iff_iff.mpr (hsecond.trans hsecond'.symm)]

theorem ReadsArgs.unique {S T T' : Seen} {args : List Addr} (h : ReadsArgs k mem S args T)
    (h' : ReadsArgs k mem S args T') : T = T' := by
  induction h with
  | nil S =>
    cases h'
    rfl
  | cons h _ ih =>
    cases h' with
    | cons h' hrest' =>
      obtain rfl := h.unique h'
      exact ih hrest'

/-! ### Fewer cells are seen when more are overwritten -/

theorem Sees.of_cut (h : Sees mem (b :: A) c r) (hr : ∀ a, r ≠ .ref a) : Sees mem A c r := by
  induction h with
  | cut _ | var _ _ => exact absurd rfl (hr _)
  | ref hna hne _ ih => exact .ref (fun ha => hna (mem_cons_of_mem b ha)) hne (ih hr)
  | attv hself => exact .attv hself
  | bound hne _ ih => exact .bound hne (ih hr)
  | const tag val => exact .const tag val
  | list a => exact .list a
  | struct a => exact .struct a

/-- An attributed variable that is seen is free. -/
theorem Sees.attv_free (h : Sees mem A c (.attv x)) : mem x = .ref x := by
  generalize hr : Cell.attv x = r at h
  induction h with
  | cut _ | var _ _ => cases hr
  | ref _ _ _ ih => exact ih hr
  | attv hself =>
    obtain rfl := Cell.attv.inj hr
    exact hself
  | bound _ _ ih => exact ih hr
  | const tag val | list a | struct a => cases hr

/-! ### Exploring -/

/-- Cells whose subterms are among them, or are among others, with the attributed variables in
them. -/
def ClosedCells (k : Settings) (mem : Memory) (A : List Addr) (R : Set Addr) (P : Set Cell)
    (ws : List Cell) : Prop :=
  (∀ x ∈ R, .ref (x.plus 1) ∈ P ∨ .ref (x.plus 1) ∈ ws) ∧
    ∀ c ∈ P, ∀ r, Sees mem A c r → (∀ x, r = .attv x → x ∈ R) ∧
      ∀ c' ∈ children k mem r, c' ∈ P ∨ c' ∈ ws

/-- All attributed variables in the attributes of known ones are known. -/
def Closed (k : Settings) (mem : Memory) (A : List Addr) (R : Set Addr) : Prop :=
  ∃ P, ClosedCells k mem A R P []

theorem Closed.cut (h : Closed k mem A R) (a : Addr) : Closed k mem (a :: A) R := by
  obtain ⟨P, hattvs, hcells⟩ := h
  refine ⟨P, hattvs, fun c hc r hsees => ?_⟩
  by_cases hr : ∃ b, r = .ref b
  · obtain ⟨b, rfl⟩ := hr
    exact ⟨fun x hx => Cell.noConfusion hx, fun c' hc' => absurd hc' not_mem_nil⟩
  · exact hcells c hc r (hsees.of_cut fun b hb => hr ⟨b, hb⟩)

/-- What is known, and to be read, on the way from the cells of `src`. -/
structure Explores (k : Settings) (mem : Memory) (A : List Addr) (R₀ : Set Addr) (src : List Cell)
    (R : Set Addr) (ws : List Cell) : Prop where
  base : R₀ ⊆ R
  sound : ∀ x ∈ R, x ∈ R₀ ∨ ∃ c ∈ src, Reach k mem A c x
  pending : ∀ c ∈ ws, ∀ x, Reach k mem A c x → ∃ c' ∈ src, Reach k mem A c' x
  closed : ∃ P, (∀ c ∈ src, c ∈ P ∨ c ∈ ws) ∧ ClosedCells k mem A R P ws

theorem Closed.explores (h : Closed k mem A R) (src : List Cell) :
    Explores k mem A R src R src where
  base := subset_rfl
  sound _ hx := Or.inl hx
  pending c hc x hx := ⟨c, hc, hx⟩
  closed := by
    obtain ⟨P, hattvs, hcells⟩ := h
    refine ⟨P, fun c hc => Or.inr hc, fun x hx => ?_, fun c hc r hr => ?_⟩
    · exact Or.inl ((hattvs x hx).resolve_right not_mem_nil)
    · obtain ⟨hknown, hchildren⟩ := hcells c hc r hr
      exact ⟨hknown, fun c' hc' => Or.inl ((hchildren c' hc').resolve_right not_mem_nil)⟩

/-- The cells to be read after one more cell. -/
theorem Explores.advance {R0 : Set Addr} {src ws' : List Cell}
    (h : Explores k mem A R0 src R (c :: ws)) (hadv : Advances k mem A R c ws R' ws') :
    Explores k mem A R0 src R' ws' := by
  obtain ⟨P, hsrc, hattvs, hcells⟩ := h.closed
  have hpending : ∀ x, Reach k mem A c x → ∃ c' ∈ src, Reach k mem A c' x :=
    fun x => h.pending c mem_cons_self x
  have hrest : ∀ c' ∈ ws, ∀ x, Reach k mem A c' x → ∃ c'' ∈ src, Reach k mem A c'' x :=
    fun c' hc' => h.pending c' (mem_cons_of_mem c hc')
  -- a cell that was to be read is the one that is read now, or still to be read
  have hmove : ∀ c', (c' ∈ P ∨ c' ∈ c :: ws) → (∀ d ∈ ws, d ∈ ws') →
      c' ∈ insert c P ∨ c' ∈ ws' := by
    rintro c' (hc' | hc') hsub
    · exact Or.inl (Set.mem_insert_of_mem c hc')
    · rcases mem_cons.mp hc' with rfl | hc'
      · exact Or.inl (Set.mem_insert c' P)
      · exact Or.inr (hsub c' hc')
  cases hadv with
  | @compound r hc hr =>
    have hsub : ∀ d ∈ ws, d ∈ children k mem r ++ ws := fun d hd => mem_append_right _ hd
    refine ⟨h.base, h.sound, fun c' hc' x hx ↦ ?_, insert c P, fun c' hc' ↦
      hmove c' (hsrc c' hc') hsub,
      fun x hx => hmove _ (hattvs x hx) hsub, fun c' hc' r' hr' => ?_⟩
    · rcases mem_append.mp hc' with hc' | hc'
      · exact hpending x (.child hc hc' hx)
      · exact hrest c' hc' x hx
    · rcases hc' with rfl | hc'
      · obtain rfl := hc.unique hr'
        refine ⟨?_, fun d hd => Or.inr (mem_append_left ws hd)⟩
        rintro x rfl
        cases hr
      · obtain ⟨hknown, hchildren⟩ := hcells c' hc' r' hr'
        exact ⟨hknown, fun d hd => hmove d (hchildren d hd) hsub⟩
  | @attv x0 hc hx0 =>
    have hself := hc.attv_free
    have hchildren0 : children k mem (.attv x0) = [.ref (x0.plus 1)] := by
      rw [children, if_pos hself]
    have hsub : ∀ d ∈ ws, d ∈ Cell.ref (x0.plus 1) :: ws := fun d hd => mem_cons_of_mem _ hd
    refine ⟨fun x hx => Set.mem_insert_of_mem x0 (h.base hx), fun x hx => ?_, fun c' hc' x hx => ?_,
      insert c P, fun c' hc' ↦ hmove c' (hsrc c' hc') hsub, fun x hx ↦ ?_, fun c' hc' r' hr' ↦ ?_⟩
    · rcases hx with rfl | hx
      · exact Or.inr (hpending x (.here hc))
      · exact h.sound x hx
    · rcases mem_cons.mp hc' with rfl | hc'
      · refine hpending x (.child hc ?_ hx)
        rw [hchildren0]
        exact mem_singleton_self _
      · exact hrest c' hc' x hx
    · rcases hx with rfl | hx
      · exact Or.inr mem_cons_self
      · exact hmove _ (hattvs x hx) hsub
    · rcases hc' with rfl | hc'
      · obtain rfl := hc.unique hr'
        rw [hchildren0]
        refine ⟨fun x hx => ?_, fun d hd => ?_⟩
        · obtain rfl := Cell.attv.inj hx
          exact Set.mem_insert x0 R
        · rw [mem_singleton.mp hd]
          exact Or.inr mem_cons_self
      · obtain ⟨hknown, hchildren⟩ := hcells c' hc' r' hr'
        exact ⟨fun x hx => Set.mem_insert_of_mem x0 (hknown x hx),
          fun d hd => hmove d (hchildren d hd) hsub⟩
  | @skip r hc hr hknown0 =>
    have hsub : ∀ d ∈ ws, d ∈ ws := fun d hd => hd
    refine ⟨h.base, h.sound, hrest, insert c P, fun c' hc' => hmove c' (hsrc c' hc') hsub,
      fun x hx => hmove _ (hattvs x hx) hsub, fun c' hc' r' hr' => ?_⟩
    rcases hc' with rfl | hc'
    · obtain rfl := hc.unique hr'
      refine ⟨hknown0, fun d hd => ?_⟩
      cases r with
      | attv x =>
        rw [children, if_pos hc.attv_free] at hd
        rw [mem_singleton.mp hd]
        exact hmove _ (hattvs x (hknown0 x rfl)) hsub
      | list a | struct a => cases hr
      | ref a | const tag val | functor psc => exact absurd hd not_mem_nil
    · obtain ⟨hknown, hchildren⟩ := hcells c' hc' r' hr'
      exact ⟨hknown, fun d hd => hmove d (hchildren d hd) hsub⟩

/-- When all cells have been read, everything that can be reached is known. -/
theorem Explores.done {R0 : Set Addr} {src : List Cell} (h : Explores k mem A R0 src R []) :
    R = R0 ∪ {x | ∃ c ∈ src, Reach k mem A c x} ∧ Closed k mem A R := by
  obtain ⟨P, hsrc, hclosed⟩ := h.closed
  have hreach : ∀ c x, Reach k mem A c x → c ∈ P → x ∈ R := by
    intro c x hx
    induction hx with
    | here hc => exact fun hP => (hclosed.2 _ hP _ hc).1 _ rfl
    | child hc hmem _ ih =>
      exact fun hP => ih (((hclosed.2 _ hP _ hc).2 _ hmem).resolve_right not_mem_nil)
  refine ⟨Set.Subset.antisymm (fun x hx => h.sound x hx) ?_, P, hclosed⟩
  rintro x (hx | ⟨c, hc, hx⟩)
  · exact h.base hx
  · exact hreach c x hx ((hsrc c hc).resolve_right not_mem_nil)

end XSBEngine.Calls
