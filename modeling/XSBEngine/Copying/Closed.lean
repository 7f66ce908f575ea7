import XSBEngine.Copying.Sources

/-!
# Copies as sources

A copy without boxes is closed: what is reached in it are free variables and blocks of its own
cells, which do not overlap. So it can be copied again, at no more than what it has cost.
-/

namespace XSBEngine.Copying

open Bool List XSBEngine.Heap

variable {intern : Cell → Bool} {mem : Nat → Cell} {c u v w : Cell} {a n top maxAr : Nat}

/-- A later cell of a block that is reached. -/
inductive Later (intern : Cell → Bool) (mem : Nat → Cell) (c : Cell) : Nat → Prop
  | tail {y : Nat} : Reaches intern mem c (.list y) → intern (.list y) = false →
      Later intern mem c (y + 1)
  | arg {y j : Nat} {psc : Psc} : Reaches intern mem c (.cs y) → intern (.cs y) = false →
      mem y = .functor psc → j < psc.arity → Later intern mem c (y + 1 + j)
  | attr {y : Nat} : Reaches intern mem c (.attv y) → mem y = .ref y → Later intern mem c (y + 1)

theorem Later.reaches (h : Later intern mem c a) : Reaches intern mem c (mem a) := by
  cases h with
  | tail hr hint => exact .tail hr hint
  | arg hr hint hpsc hj => exact .arg hr hint hpsc hj
  | attr hr hfree => exact .attr hr hfree

/-- The cells that are read are those of blocks that are reached. -/
structure Scan.Within (intern : Cell → Bool) (mem : Nat → Cell) (c : Cell) (S : Scan) : Prop where
  seen : ∀ a, S.seen (.list a) = true → Reaches intern mem c (.list a) ∧ intern (.list a) = false
  head : ∀ x, .head x ∈ S.todo → Reaches intern mem c (mem x)
  later : ∀ x, .later x ∈ S.todo → Later intern mem c x

theorem Scan.Within.enter {S : Scan} (h : S.Within intern mem c) (hv : Reaches intern mem c v)
    (hfree : ∀ a, v = .attv a → mem a = .ref a) : (S.enter intern mem v).Within intern mem c := by
  have hadd : ∀ rs, readings intern mem v = some rs →
      (∀ x, .head x ∈ rs → Reaches intern mem c (mem x)) ∧
      ∀ x, .later x ∈ rs → Later intern mem c x := by
    intro rs hrs
    cases v with
    | ref a =>
      cases hrs
      exact ⟨nofun, nofun⟩
    | attv a =>
      cases hrs
      refine ⟨nofun, fun x hx => ?_⟩
      cases mem_singleton.mp hx
      exact .attr hv (hfree a rfl)
    | list a =>
      by_cases hint : intern (.list a) = true
      · rw [readings, if_pos hint] at hrs
        cases hrs
      · rw [readings, if_neg hint] at hrs
        rw [not_eq_true] at hint
        cases hrs
        constructor
        · intro x hx
          rcases mem_cons.mp hx with hx | hx
          · cases hx
            exact .head hv hint
          · cases mem_singleton.mp hx
        · intro x hx
          rcases mem_cons.mp hx with hx | hx
          · cases hx
          · cases mem_singleton.mp hx
            exact .tail hv hint
    | cs a =>
      by_cases hint : intern (.cs a) = true
      · rw [readings, if_pos hint] at hrs
        cases hrs
      · rw [readings, if_neg hint] at hrs
        rw [not_eq_true] at hint
        split at hrs
        next psc hpsc =>
          cases hrs
          constructor
          · intro x hx
            obtain ⟨j, -, hj⟩ := mem_map.mp hx
            cases hj
          · intro x hx
            obtain ⟨j, hlt, hj⟩ := mem_map.mp hx
            cases hj
            exact .arg hv hint hpsc (mem_range.mp hlt)
        next => cases hrs
    | _ => cases hrs
  cases hrs : readings intern mem v with
  | none =>
    rw [Scan.enter_of_leaf hrs]
    exact h
  | some rs =>
    cases hseen : S.seen v with
    | true =>
      rw [Scan.enter_of_seen hseen]
      exact h
    | false =>
      rw [Scan.enter_of_new hseen hrs]
      obtain ⟨hhead, hlater⟩ := hadd rs hrs
      constructor
      case seen =>
        intro a ha
        by_cases hav : .list a = v
        · rw [hav]
          refine ⟨hv, ?_⟩
          subst hav
          by_contra hint
          rw [not_eq_false] at hint
          rw [readings, if_pos hint] at hrs
          cases hrs
        · refine h.seen a ?_
          rw [← Function.update_of_ne hav true S.seen]
          exact ha
      case head =>
        intro x hx
        rcases mem_append.mp hx with hx | hx
        · exact hhead x hx
        · exact h.head x hx
      case later =>
        intro x hx
        rcases mem_append.mp hx with hx | hx
        · exact hlater x hx
        · exact h.later x hx

theorem Scan.Within.reads {S S' : Scan} (h : S.Within intern mem c)
    (hS : S.Reads intern mem S') : S'.Within intern mem c := by
  induction hS with
  | refl => exact h
  | @read seen r todo v _ hv ih =>
    have hr : Reaches intern mem c (mem r.cell) := by
      cases r with
      | head x => exact ih.head x mem_cons_self
      | later x => exact (ih.later x mem_cons_self).reaches
    have htodo : Scan.Within intern mem c ⟨seen, todo⟩ :=
      ⟨ih.seen, fun x hx => ih.head x (mem_cons_of_mem _ hx),
        fun x hx => ih.later x (mem_cons_of_mem _ hx)⟩
    refine htodo.enter (hr.ends hv) ?_
    rintro a rfl
    obtain ⟨n, hn⟩ := hv
    exact deref_free hn (.inr rfl)

theorem Through.reaches {y : Nat} (h : Through mem v y) (hv : Reaches intern mem c v) :
    Reaches intern mem c (.ref y) ∨ Reaches intern mem c (.attv y) := by
  induction h with
  | ref => exact .inl hv
  | attv => exact .inr hv
  | next hne _ ih => exact ih (.ref hv hne)
  | bound hne _ ih => exact ih (.bound hv hne)

/-- The order makes no difference where the heads of all lists that are read elsewhere are as
required. -/
theorem Scan.safe_of_reaches {ok : Cell → Prop} (hv : EndsAt mem c v)
    (hok : ∀ a u, Reaches intern mem c (.ref a) ∨ Reaches intern mem c (.attv a) ∨
      Later intern mem c a → Reaches intern mem c (.list a) → intern (.list a) = false →
      EndsAt mem (mem a) u → ok u) :
    (Scan.enter intern mem ⟨fun _ => false, []⟩ v).Safe intern mem ok := by
  have hempty : Scan.Within intern mem c ⟨fun _ => false, []⟩ :=
    ⟨nofun, nofun, nofun⟩
  have hwithin := hempty.enter (Reaches.refl.ends hv) (by
    rintro a rfl
    obtain ⟨n, hn⟩ := hv
    exact deref_free hn (.inr rfl))
  intro seen r todo hr y u hy hseen hu
  have hnow := hwithin.reads hr
  obtain ⟨hlist, hint⟩ := hnow.seen y hseen
  refine hok y u ?_ hlist hint hu
  cases r with
  | head x =>
    exact (Through.reaches hy (hnow.head x mem_cons_self)).imp_right .inl
  | later x =>
    have hx := hnow.later x mem_cons_self
    rcases hy with rfl | hy
    · exact .inr (.inr hx)
    · exact (Through.reaches hy hx.reaches).imp_right .inl

/-- What is reached from `c` are free variables, in the cells `P` or at `top`, and blocks of cells
in `P` that do not overlap. -/
structure Closed (intern : Cell → Bool) (mem : Nat → Cell) (c : Cell) (top maxAr : Nat)
    (P : Nat → Prop) : Prop where
  ref : ∀ a, Reaches intern mem c (.ref a) → (a = top ∨ P a) ∧ mem a = .ref a
  attv : ∀ a, Reaches intern mem c (.attv a) →
    (P a ∧ P (a + 1)) ∧ mem a = .ref a ∧ mem (a + 1) ≠ .attv a
  list : ∀ a, Reaches intern mem c (.list a) → intern (.list a) = false → P a ∧ P (a + 1)
  cs : ∀ a, Reaches intern mem c (.cs a) → intern (.cs a) = false →
    ∃ psc, mem a = .functor psc ∧ psc.arity ≤ maxAr ∧ ∀ j < psc.arity + 1, P (a + j)
  functor : ∀ psc, ¬Reaches intern mem c (.functor psc)
  separate : ∀ a, Reaches intern mem c (.ref a) → ¬Reaches intern mem c (.attv a)
  apart : ∀ a, Reaches intern mem c (.list a) → intern (.list a) = false → ¬Later intern mem c a

/-- The box of a floating-point number. -/
def boxCost : Cell → Nat
  | .float _ => 4
  | _ => 0

/-- What a block that is reached in a copy costs when it is copied to the heap. -/
def copyWeight (mem : Nat → Cell) : Cell → Nat
  | .list a => 2 + (boxCost (mem a) + boxCost (mem (a + 1)))
  | .attv a => 2 + boxCost (mem (a + 1))
  | .cs a =>
    match mem a with
    | .functor psc => psc.arity + 1 + ∑ j ∈ Finset.range psc.arity, boxCost (mem (a + 1 + j))
    | _ => 0
  | _ => 0

namespace Setup

variable {σ : Setup} {ρ : Cell → Option Cell} {P : Nat → Prop} {s : CopyState} {x y : Nat}

/-- What has an image that is not copied as it is has been recorded. -/
theorem Image.recorded (hi : σ.Image s.mem ρ P v w) (hbox : σ.boxed = false)
    (hw : σ.leaf w = false) : ρ v = some w := by
  cases hi with
  | plain _ hplain =>
    by_cases hl : σ.leaf v = true
    · rw [Plain, if_pos hl] at hplain
      rw [hplain, hl] at hw
      cases hw
    · rw [Plain, if_neg hl] at hplain
      exact hplain
  | box hb =>
    rw [hbox] at hb
    cases hb

/-- What is reached in a copy without boxes is an image. -/
theorem Complete.back (hg : σ.Graph) (hbox : σ.boxed = false) (h : Complete σ s ρ P)
    (hword : σ.Word v) (hi : σ.Image s.mem ρ P v w)
    (hc : Reaches σ.K.isinternstr s.mem w c) : ∃ u, σ.Word u ∧ σ.Image s.mem ρ P u c := by
  induction hc with
  | refl => exact ⟨v, hword, hi⟩
  | ref _ hne ih =>
    obtain ⟨u, -, hi⟩ := ih
    cases h.pairs _ _ (hi.recorded hbox rfl) with
    | ref _ _ _ _ hcell => exact absurd hcell hne
  | bound _ hne ih =>
    obtain ⟨u, -, hi⟩ := ih
    cases h.pairs _ _ (hi.recorded hbox rfl) with
    | attv _ _ _ hcell => exact absurd hcell hne
  | attr _ _ ih =>
    obtain ⟨u, -, hi⟩ := ih
    have hρ := hi.recorded hbox rfl
    cases h.pairs _ _ hρ with
    | @attv a _ hword hfree _ _ =>
      cases h.done _ _ hρ with
      | attv _ _ hd =>
        obtain ⟨u, hu, hi⟩ := hd
        exact ⟨u, ⟨_, (hg.free a hword hfree).2.1, hu⟩, hi⟩
  | head _ hint ih =>
    obtain ⟨u, -, hi⟩ := ih
    have hρ := hi.recorded hbox hint
    cases h.pairs _ _ hρ with
    | @list a _ hword hint' _ =>
      cases h.done _ _ hρ with
      | list _ _ hd _ =>
        obtain ⟨u, hu, hi⟩ := hd
        exact ⟨u, ⟨_, (hg.list a hword hint').2.1.1, hu⟩, hi⟩
  | tail _ hint ih =>
    obtain ⟨u, -, hi⟩ := ih
    have hρ := hi.recorded hbox hint
    cases h.pairs _ _ hρ with
    | @list a _ hword hint' _ =>
      cases h.done _ _ hρ with
      | list _ _ _ hd =>
        obtain ⟨u, hu, hi⟩ := hd
        exact ⟨u, ⟨_, (hg.list a hword hint').2.1.2, hu⟩, hi⟩
  | @arg _ j _ _ hint hpsc hj ih =>
    obtain ⟨u, -, hi⟩ := ih
    have hρ := hi.recorded hbox hint
    cases h.pairs _ _ hρ with
    | @cs a _ hword hint' _ =>
      obtain ⟨-, -, psc', hpsc', -, hargs⟩ := hg.cs a hword hint'
      cases h.done _ _ hρ with
      | cs hsrc hnew _ hd =>
        cases hpsc.symm.trans hnew
        cases hsrc.symm.trans hpsc'
        obtain ⟨u, hu, hi⟩ := hd j hj
        exact ⟨u, ⟨_, (hargs j hj).2, hu⟩, hi⟩

/-- A block that is reached in a copy without boxes is the image of a block. -/
theorem Complete.origin (hg : σ.Graph) (hbox : σ.boxed = false) (h : Complete σ s ρ P)
    (hword : σ.Word v) (hi : σ.Image s.mem ρ P v w)
    (hc : Reaches σ.K.isinternstr s.mem w c) (hl : σ.leaf c = false) :
    ∃ u, u ∈ σ.words ∧ ρ u = some c := by
  obtain ⟨u, hu, hi⟩ := h.back hg hbox hword hi hc
  exact ⟨u, hg.word_mem hu, hi.recorded hbox hl⟩

/-- A copy without boxes is closed. -/
theorem Complete.closed (hg : σ.Graph) (hbox : σ.boxed = false) (h : Complete σ s ρ P)
    (hword : σ.Word v) (hi : σ.Image s.mem ρ P v w) :
    Closed σ.K.isinternstr s.mem w σ.top σ.maxAr (σ.Owned s.space) := by
  have horigin : ∀ {c}, Reaches σ.K.isinternstr s.mem w c → σ.leaf c = false →
      ∃ u, u ∈ σ.words ∧ ρ u = some c := fun hc hl => h.origin hg hbox hword hi hc hl
  constructor
  case ref =>
    intro a ha
    obtain ⟨u, -, hρ⟩ := horigin ha rfl
    cases h.pairs _ _ hρ with
    | ref _ _ hown _ hcell => exact ⟨hown, hcell⟩
  case attv =>
    intro a ha
    obtain ⟨u, -, hρ⟩ := horigin ha rfl
    cases h.pairs _ _ hρ with
    | @attv b _ hword hfree _ hcell =>
      cases h.done _ _ hρ with
      | attv hd hd' hcd =>
        refine ⟨⟨h.owned _ hd, h.owned _ hd'⟩, hcell, fun hown => ?_⟩
        obtain ⟨u, hu, hi⟩ := hcd
        rw [hown] at hi
        cases h.inj _ _ _ _ (hi.recorded hbox rfl) hρ (by
          cases h.pairs _ _ (hi.recorded hbox rfl) with
          | attv => rfl) rfl rfl
        exact (hg.free b hword hfree).2.2.2 hu
  case list =>
    intro a ha hint
    obtain ⟨u, -, hρ⟩ := horigin ha hint
    cases h.pairs _ _ hρ with
    | list =>
      cases h.done _ _ hρ with
      | list hd hd' _ _ => exact ⟨h.owned _ hd, h.owned _ hd'⟩
  case cs =>
    intro a ha hint
    obtain ⟨u, -, hρ⟩ := horigin ha hint
    cases h.pairs _ _ hρ with
    | @cs b _ hword hint' _ =>
      obtain ⟨-, -, psc, hpsc, har, -⟩ := hg.cs b hword hint'
      cases h.done _ _ hρ with
      | cs hsrc hnew hd _ =>
        cases hpsc.symm.trans hsrc
        exact ⟨psc, hnew, har, fun j hj => h.owned _ (hd j hj)⟩
  case functor =>
    intro psc hc
    obtain ⟨u, -, hρ⟩ := horigin hc rfl
    cases h.pairs _ _ hρ
  case separate =>
    intro a ha ha'
    obtain ⟨u, -, hρ⟩ := horigin ha rfl
    obtain ⟨u', -, hρ'⟩ := horigin ha' rfl
    have hp := h.pairs _ _ hρ
    have hp' := h.pairs _ _ hρ'
    have hv : isVar u = true := by
      cases hp with
      | ref => rfl
    have hv' : isVar u' = true := by
      cases hp' with
      | attv => rfl
    cases h.inj _ _ _ _ hρ hρ' hv hv' rfl
    cases hρ.symm.trans hρ'
  case apart =>
    intro a ha hint hlater
    obtain ⟨u, -, hρ⟩ := horigin ha hint
    have hsize : blockSize σ.src u = 2 := by
      cases h.pairs _ _ hρ with
      | list => rfl
    have hsame := (h.apart u _ hρ a le_rfl (by
      show a < a + _
      omega)).2
    cases hlater with
    | @tail y hy hint' =>
      obtain ⟨u', -, hρ'⟩ := horigin hy hint'
      have hsize' : blockSize σ.src u' = 2 := by
        cases h.pairs _ _ hρ' with
        | list => rfl
      cases hsame u' _ hρ' (Nat.le_succ y) (by
        show y + 1 < y + _
        omega)
      cases Option.some.inj (hρ.symm.trans hρ')
    | @arg y j psc hy hint' hpsc hj =>
      obtain ⟨u', -, hρ'⟩ := horigin hy hint'
      have hsize' : blockSize σ.src u' = psc.arity + 1 := by
        cases h.pairs _ _ hρ' with
        | cs =>
          cases h.done _ _ hρ' with
          | cs hsrc hnew _ _ =>
            cases hpsc.symm.trans hnew
            simp only [blockSize, hsrc]
      cases hsame u' _ hρ' (show y ≤ y + 1 + j by omega) (by
        show y + 1 + j < y + _
        omega)
      cases Option.some.inj (hρ.symm.trans hρ')
    | @attr y hy hfree =>
      obtain ⟨u', -, hρ'⟩ := horigin hy rfl
      have hsize' : blockSize σ.src u' = 2 := by
        cases h.pairs _ _ hρ' with
        | attv => rfl
      cases hsame u' _ hρ' (Nat.le_succ y) (by
        show y + 1 < y + _
        omega)
      cases Option.some.inj (hρ.symm.trans hρ')

/-- A word costs what its image costs, where boxes are counted but not built. -/
theorem Image.cost_eq (hbox : σ.boxed = false) (hsize : σ.K.floatSize = 4)
    (hp : ∀ v w, ρ v = some w → σ.Pair s v w) (hi : σ.Image s.mem ρ P v w) :
    σ.cost v = boxCost w := by
  cases hi with
  | plain _ hplain =>
    by_cases hl : σ.leaf v = true
    · rw [Plain, if_pos hl] at hplain
      subst hplain
      cases w with
      | float x => exact hsize
      | _ => rfl
    · rw [Plain, if_neg hl] at hplain
      cases hp _ _ hplain with
      | _ => rfl
  | box hb =>
    rw [hbox] at hb
    cases hb

theorem Complete.cellCost_eq (hg : σ.Graph) (hbox : σ.boxed = false) (hsize : σ.K.floatSize = 4)
    (h : Complete σ s ρ P) (hword : σ.src x ∈ σ.words) (hd : σ.CellDone s.mem ρ P x y) :
    σ.cellCost x = boxCost (s.mem y) := by
  obtain ⟨v, hv, hi⟩ := hd
  rw [hg.cellCost_eq hword hv]
  exact hi.cost_eq hbox hsize h.pairs

/-- A block has the weight of its image. -/
theorem Complete.weight_eq (hg : σ.Graph) (hbox : σ.boxed = false) (hsize : σ.K.floatSize = 4)
    (h : Complete σ s ρ P) (hw : isBlock σ.K.isinternstr w = true) (hρ : ρ v = some w) :
    v ∈ σ.blocks ∧ σ.weight v = copyWeight s.mem w := by
  cases h.pairs _ _ hρ with
  | ref => cases hw
  | @attv a d hword hfree _ _ =>
    obtain ⟨-, hattr, hblock, -⟩ := hg.free a hword hfree
    cases h.done _ _ hρ with
    | attv _ _ hd =>
      refine ⟨hblock, ?_⟩
      rw [weight, copyWeight, h.cellCost_eq hg hbox hsize hattr hd]
  | @list a d hword hint _ =>
    obtain ⟨-, ⟨hhead, htail⟩, hblock, -⟩ := hg.list a hword hint
    cases h.done _ _ hρ with
    | list _ _ hd hd' =>
      refine ⟨hblock, ?_⟩
      rw [weight, copyWeight, h.cellCost_eq hg hbox hsize hhead hd,
        h.cellCost_eq hg hbox hsize htail hd']
  | @cs a d hword hint _ =>
    obtain ⟨-, hblock, psc, hpsc, -, hargs⟩ := hg.cs a hword hint
    cases h.done _ _ hρ with
    | cs hsrc hnew _ hd =>
      cases hpsc.symm.trans hsrc
      refine ⟨hblock, ?_⟩
      simp only [weight, copyWeight, hpsc, hnew]
      congr 1
      apply Finset.sum_congr rfl
      intro j hj
      have hj := Finset.mem_range.mp hj
      exact h.cellCost_eq hg hbox hsize (hargs j hj).2 (hd j hj)

/-- To copy a copy again costs no more than it has cost. -/
theorem Complete.size (hg : σ.Graph) (hbox : σ.boxed = false) (hsize : σ.K.floatSize = 4)
    (h : Complete σ s ρ P) (hword : σ.Word v) (hi : σ.Image s.mem ρ P v w) {T : Finset Cell}
    (hT : ∀ u ∈ T, Reaches σ.K.isinternstr s.mem w u ∧ isBlock σ.K.isinternstr u = true) :
    ∑ u ∈ T, copyWeight s.mem u + σ.rest ρ ≤ σ.rest fun _ => none := by
  have horigin : ∀ u ∈ T, ∃ v, ρ v = some u := by
    intro u hu
    obtain ⟨hr, hb⟩ := hT u hu
    have hl : σ.leaf u = false := by
      cases u with
      | list a | cs a => exact not_eq_true' _ ▸ hb
      | attv a => rfl
      | _ => cases hb
    obtain ⟨v, -, hρ⟩ := h.origin hg hbox hword hi hr hl
    exact ⟨v, hρ⟩
  choose! r hr using horigin
  have hinj : Set.InjOn r T := by
    intro u hu u' hu' he
    have h1 := hr u hu
    rw [he, hr u' hu'] at h1
    exact (Option.some.inj h1).symm
  have hweight : ∀ u ∈ T, r u ∈ σ.blocks ∧ σ.weight (r u) = copyWeight s.mem u := fun u hu =>
    h.weight_eq hg hbox hsize (hT u hu).2 (hr u hu)
  have hsum : ∑ u ∈ T, copyWeight s.mem u = ∑ v ∈ T.image r, σ.weight v := by
    rw [Finset.sum_image hinj]
    exact Finset.sum_congr rfl fun u hu => (hweight u hu).2.symm
  have hsub : T.image r ⊆ σ.blocks.filter fun v => ¬ρ v = none := by
    intro v hv
    obtain ⟨u, hu, rfl⟩ := Finset.mem_image.mp hv
    rw [Finset.mem_filter, hr u hu]
    exact ⟨(hweight u hu).1, Option.some_ne_none u⟩
  have hle := Finset.sum_le_sum_of_subset (f := σ.weight) hsub
  have hrest : σ.rest ρ + ∑ v ∈ σ.blocks with ¬ρ v = none, σ.weight v =
      σ.rest (fun _ => none) := by
    unfold rest
    rw [Finset.sum_filter_add_sum_filter_not, Finset.filter_true_of_mem fun _ _ => rfl]
  omega

end Setup

/-! ### Other memories -/

section Congr

variable {mem' : Nat → Cell} {P : Nat → Prop}

section

variable (h : Closed intern mem c top maxAr P)
include h

section

variable (hmem : ∀ y, y = top ∨ P y → mem' y = mem y)
include hmem

theorem Closed.reaches_to (hu : Reaches intern mem c u) :
    Reaches intern mem' c u := by
  induction hu with
  | refl => exact .refl
  | ref hr hne _ => exact absurd (h.ref _ hr).2 hne
  | bound hr hne _ => exact absurd (h.attv _ hr).2.1 hne
  | attr hr hfree ih =>
    obtain ⟨⟨ha, ha'⟩, -, -⟩ := h.attv _ hr
    rw [← hmem _ (.inr ha')]
    exact .attr ih ((hmem _ (.inr ha)).trans hfree)
  | head hr hint ih =>
    rw [← hmem _ (.inr (h.list _ hr hint).1)]
    exact .head ih hint
  | tail hr hint ih =>
    rw [← hmem _ (.inr (h.list _ hr hint).2)]
    exact .tail ih hint
  | @arg a j psc hr hint hpsc hj ih =>
    obtain ⟨psc', hpsc', -, hcells⟩ := h.cs a hr hint
    cases hpsc.symm.trans hpsc'
    have hcell := hcells (j + 1) (by omega)
    rw [← Nat.add_assoc, Nat.add_right_comm] at hcell
    rw [← hmem _ (.inr hcell)]
    exact .arg ih hint ((hmem a (.inr (hcells 0 (by omega)))).trans hpsc) hj

theorem Closed.reaches_of (hu : Reaches intern mem' c u) :
    Reaches intern mem c u := by
  induction hu with
  | refl => exact .refl
  | ref _ hne ih =>
    obtain ⟨ha, hfree⟩ := h.ref _ ih
    exact absurd ((hmem _ ha).trans hfree) hne
  | bound _ hne ih =>
    obtain ⟨⟨ha, -⟩, hfree, -⟩ := h.attv _ ih
    exact absurd ((hmem _ (.inr ha)).trans hfree) hne
  | attr _ _ ih =>
    obtain ⟨⟨-, ha'⟩, hfree, -⟩ := h.attv _ ih
    rw [hmem _ (.inr ha')]
    exact .attr ih hfree
  | head _ hint ih =>
    rw [hmem _ (.inr (h.list _ ih hint).1)]
    exact .head ih hint
  | tail _ hint ih =>
    rw [hmem _ (.inr (h.list _ ih hint).2)]
    exact .tail ih hint
  | @arg a j psc _ hint hpsc hj ih =>
    obtain ⟨psc', hpsc', -, hcells⟩ := h.cs a ih hint
    have he := (hmem a (.inr (hcells 0 (by omega)))).trans hpsc'
    cases hpsc.symm.trans he
    have hcell := hcells (j + 1) (by omega)
    rw [← Nat.add_assoc, Nat.add_right_comm] at hcell
    rw [hmem _ (.inr hcell)]
    exact .arg ih hint hpsc' hj

theorem Closed.denote_eq (hu : Reaches intern mem c u) :
    denote intern mem' n u = denote intern mem n u := by
  induction n generalizing u with
  | zero => rfl
  | succ n ih =>
    cases u with
    | ref a =>
      obtain ⟨ha, hfree⟩ := h.ref a hu
      rw [denote, denote, if_pos hfree, if_pos ((hmem a ha).trans hfree)]
    | attv a =>
      obtain ⟨⟨ha, -⟩, hfree, -⟩ := h.attv a hu
      rw [denote, denote, if_pos hfree, if_pos ((hmem a (.inr ha)).trans hfree)]
    | list a =>
      rw [denote, denote]
      split
      next => rfl
      next hint =>
        rw [not_eq_true] at hint
        obtain ⟨ha, ha'⟩ := h.list a hu hint
        rw [hmem a (.inr ha), hmem (a + 1) (.inr ha'), ih (.head hu hint), ih (.tail hu hint)]
    | cs a =>
      rw [denote, denote]
      split
      next => rfl
      next hint =>
        rw [not_eq_true] at hint
        obtain ⟨psc, hpsc, -, hcells⟩ := h.cs a hu hint
        have hpsc' := (hmem a (.inr (hcells 0 (by omega)))).trans hpsc
        simp only [hpsc, hpsc']
        congr 1
        have hargs : ∀ j ∈ List.range psc.arity, denote intern mem' n (mem' (a + 1 + j)) =
            denote intern mem n (mem (a + 1 + j)) := by
          intro j hj
          have hj := mem_range.mp hj
          have hcell := hcells (j + 1) (by omega)
          rw [← Nat.add_assoc, Nat.add_right_comm] at hcell
          rw [hmem _ (.inr hcell)]
          exact ih (.arg hu hint hpsc hj)
        exact mapM_congr hargs
    | _ => rfl

/-- A copy does not depend on other cells. -/
theorem Closed.congr : Closed intern mem' c top maxAr P where
  ref a ha := by
    obtain ⟨hown, hfree⟩ := h.ref a (h.reaches_of hmem ha)
    exact ⟨hown, (hmem a hown).trans hfree⟩
  attv a ha := by
    obtain ⟨⟨hown, hown'⟩, hfree, hne⟩ := h.attv a (h.reaches_of hmem ha)
    refine ⟨⟨hown, hown'⟩, (hmem a (.inr hown)).trans hfree, ?_⟩
    rw [hmem (a + 1) (.inr hown')]
    exact hne
  list a ha hint := h.list a (h.reaches_of hmem ha) hint
  cs a ha hint := by
    obtain ⟨psc, hpsc, har, hcells⟩ := h.cs a (h.reaches_of hmem ha) hint
    exact ⟨psc, (hmem a (.inr (hcells 0 (by omega)))).trans hpsc, har, hcells⟩
  functor psc hr := h.functor psc (h.reaches_of hmem hr)
  separate a ha ha' := h.separate a (h.reaches_of hmem ha) (h.reaches_of hmem ha')
  apart a ha hint hlater := by
    refine h.apart a (h.reaches_of hmem ha) hint ?_
    cases hlater with
    | tail hr hint' => exact .tail (h.reaches_of hmem hr) hint'
    | arg hr hint' hpsc hj =>
      obtain ⟨psc, hpsc', -, hcells⟩ := h.cs _ (h.reaches_of hmem hr) hint'
      cases hpsc.symm.trans ((hmem _ (.inr (hcells 0 (by omega)))).trans hpsc')
      exact .arg (h.reaches_of hmem hr) hint' hpsc' hj
    | attr hr _ => exact .attr (h.reaches_of hmem hr) (h.attv _ (h.reaches_of hmem hr)).2.1

end

end

theorem Closed.variant_congr {mem0 : Nat → Cell} {c0 : Cell} {f : Nat → Nat}
    (h : Closed intern mem c top maxAr P) (hmem : ∀ y, y = top ∨ P y → mem' y = mem y)
    (hv : Variant intern mem0 c0 mem c f) : Variant intern mem0 c0 mem' c f where
  term n t ht := by
    rw [h.denote_eq hmem .refl]
    exact hv.term n t ht
  attr a ha hfree n t ht := by
    obtain ⟨hr, hm⟩ := hv.attv a ha hfree
    rw [hmem _ (.inr (h.attv _ hr).1.2), h.denote_eq hmem (.attr hr hm)]
    exact hv.attr a ha hfree n t ht
  var a ha hfree := by
    obtain ⟨hr, hm⟩ := hv.var a ha hfree
    exact ⟨h.reaches_to hmem hr, (hmem _ (h.ref _ hr).1).trans hm⟩
  attv a ha hfree := by
    obtain ⟨hr, hm⟩ := hv.attv a ha hfree
    exact ⟨h.reaches_to hmem hr, (hmem _ (.inr (h.attv _ hr).1.1)).trans hm⟩
  inj := hv.inj

theorem Closed.weight_congr (h : Closed intern mem c top maxAr P)
    (hmem : ∀ y, y = top ∨ P y → mem' y = mem y) (hu : Reaches intern mem c u)
    (hb : isBlock intern u = true) : copyWeight mem' u = copyWeight mem u := by
  cases u with
  | list a =>
    obtain ⟨ha, ha'⟩ := h.list a hu (not_eq_true' _ ▸ hb)
    rw [copyWeight, copyWeight, hmem a (.inr ha), hmem (a + 1) (.inr ha')]
  | attv a =>
    rw [copyWeight, copyWeight, hmem (a + 1) (.inr (h.attv a hu).1.2)]
  | cs a =>
    obtain ⟨psc, hpsc, -, hcells⟩ := h.cs a hu (not_eq_true' _ ▸ hb)
    simp only [copyWeight, hpsc, (hmem a (.inr (hcells 0 (by omega)))).trans hpsc]
    congr 1
    apply Finset.sum_congr rfl
    intro j hj
    have hj := Finset.mem_range.mp hj
    have hcell := hcells (j + 1) (by omega)
    rw [← Nat.add_assoc, Nat.add_right_comm] at hcell
    rw [hmem _ (.inr hcell)]
  | _ => cases hb

end Congr

/-! ### Copies of copies -/

mutual

theorem Tree.rename_rename (f f' : Nat → Nat) :
    ∀ t : Tree, (t.rename f).rename f' = t.rename (f' ∘ f)
  | .var a => rfl
  | .attv a => rfl
  | .const c => rfl
  | .list head tail => by
    rw [Tree.rename, Tree.rename, Tree.rename, head.rename_rename, tail.rename_rename]
  | .struct psc args => by
    rw [Tree.rename, Tree.rename, Tree.rename, renameAll_rename f f' args]

theorem renameAll_rename (f f' : Nat → Nat) :
    ∀ ts : List Tree, renameAll f' (renameAll f ts) = renameAll (f' ∘ f) ts
  | [] => rfl
  | t :: ts => by
    rw [renameAll, renameAll, renameAll, t.rename_rename, renameAll_rename f f' ts]

end

theorem Variant.occurs {mem' : Nat → Cell} {f : Nat → Nat} (h : Variant intern mem c mem' w f)
    (ha : Occurs intern mem c a) : Occurs intern mem' w (f a) := by
  obtain ⟨hr | hr, hfree⟩ := ha
  · obtain ⟨hr, hm⟩ := h.var a hr hfree
    exact ⟨.inl hr, hm⟩
  · obtain ⟨hr, hm⟩ := h.attv a hr hfree
    exact ⟨.inr hr, hm⟩

/-- A variant of a variant. -/
theorem Variant.trans {mem' mem'' : Nat → Cell} {w' : Cell} {f f' : Nat → Nat}
    (h : Variant intern mem c mem' w f) (h' : Variant intern mem' w mem'' w' f') :
    Variant intern mem c mem'' w' (f' ∘ f) where
  term n t ht := by
    rw [← Tree.rename_rename]
    exact h'.term n _ (h.term n t ht)
  attr a ha hfree n t ht := by
    obtain ⟨hr, hm⟩ := h.attv a ha hfree
    rw [← Tree.rename_rename]
    exact h'.attr (f a) hr hm n _ (h.attr a ha hfree n t ht)
  var a ha hfree := by
    obtain ⟨hr, hm⟩ := h.var a ha hfree
    exact h'.var (f a) hr hm
  attv a ha hfree := by
    obtain ⟨hr, hm⟩ := h.attv a ha hfree
    exact h'.attv (f a) hr hm
  inj a b ha hb he := h.inj a b ha hb (h'.inj _ _ (h.occurs ha) (h.occurs hb) he)

end XSBEngine.Copying
