import XSBEngine.Copying.Order

/-!
# What a call copies

Each call of the copier leaves the image of its word at the destination, copies each block once,
and changes nothing else but for the marks.
-/

namespace XSBEngine.Copying

open Bool Function List XSBEngine.Heap

namespace Setup

variable {σ : Setup} {ρ ρ' ρ1 ρ2 : Cell → Option Cell} {s s' s1 s2 : CopyState}
  {T : Set Nat} {n k d x y dest : Nat} {e : Option Nat} {c v w : Cell} {todo : List Reading}

/-! ### Words where marks may be met -/

/-- A word to be copied, or what it dereferences to. -/
def Word (σ : Setup) (v : Cell) : Prop := ∃ c ∈ σ.words, EndsAt σ.src c v

theorem Graph.word_mem (hg : σ.Graph) (h : σ.Word v) : v ∈ σ.words := by
  obtain ⟨c, hc, n, h⟩ := h
  induction n generalizing c with
  | zero => cases h
  | succ n ih =>
    cases c with
    | ref a =>
      by_cases ha : σ.src a = .ref a
      · rw [deref, if_pos ha] at h
        cases h
        exact hc
      · rw [deref, if_neg ha] at h
        exact ih _ ((hg.ref a hc).2 ha) h
    | attv a =>
      by_cases ha : σ.src a = .ref a
      · rw [deref, if_pos ha] at h
        cases h
        exact hc
      · rw [deref, if_neg ha] at h
        exact ih _ ((hg.attv a hc).2 ha) h
    | _ =>
      cases h
      exact hc

theorem Word.free (h : σ.Word v) (ha : v = .ref x ∨ v = .attv x) : σ.src x = .ref x := by
  obtain ⟨c, -, n, h⟩ := h
  exact deref_free h ha

theorem Graph.ends_at (hg : σ.Graph) (hc : c ∈ σ.words) : ∃ v, EndsAt σ.src c v := by
  obtain ⟨v, h⟩ := hg.ends c hc
  exact ⟨v, _, h⟩

/-- A chain of `n` references to `v` does not meet the cell whose list is being entered. -/
def Avoids (σ : Setup) (e : Option Nat) (n : Nat) (v : Cell) : Prop :=
  ∀ x, e = some x → ¬EndsAt σ.src (σ.src x) v ∨
    σ.src x ≠ .ref x ∧ ∀ m < n, deref σ.src m (σ.src x) = none

variable {a : Nat}

theorem Avoids.not_free (h : Avoids σ e n (.ref a)) (hfree : σ.src a = .ref a) :
    e ≠ some a := by
  intro hx
  rcases h a hx with h | h
  · exact h ⟨1, by rw [hfree, deref, if_pos hfree]⟩
  · exact h.1 hfree

theorem Avoids.not_read (h : Avoids σ e (n + 1) v)
    (hd : deref σ.src n (σ.src a) = some v) : e ≠ some a := by
  intro hx
  rcases h a hx with h | h
  · exact h ⟨n, hd⟩
  · rw [h.2 n (Nat.lt_succ_self n)] at hd
    cases hd

/-- The words that have been copied. -/
def met (ρ : Cell → Option Cell) (v : Cell) : Bool := (ρ v).isSome

theorem met_of_some (h : ρ v = some w) : met ρ v = true := by
  rw [met, h, Option.isSome_some]

theorem met_of_none (h : ρ v = none) : met ρ v = false := by
  rw [met, h, Option.isSome_none]

theorem met_update : met (update ρ v (some w)) = update (met ρ) v true := by
  ext u
  by_cases hu : u = v
  · rw [hu, met, update_self, update_self, Option.isSome_some]
  · rw [met, update_of_ne hu, update_of_ne hu, met]

/-- What a reading meets in cells with the marks of lists is as required. -/
def MeetsOk (σ : Setup) (ρ : Cell → Option Cell) (meets : Nat → Prop) : Prop :=
  ∀ y v, meets y → met ρ (.list y) = true → EndsAt σ.src (σ.src y) v → σ.AliasOk v

/-- The mark on the head of a list, as a word. -/
theorem MeetsOk.stands {meets : Nat → Prop} (h : MeetsOk σ ρ meets) (hx : meets x)
    (hρ : ρ (.list x) = some (.list d)) (he : e ≠ some x) (hv : EndsAt σ.src (σ.src x) v) :
    σ.Stands s.mem ρ e v (.list d) :=
  .head hρ he hv (h x v hx (met_of_some hρ) hv)

theorem Inv.deref_stands (hg : σ.Graph) (hσ : σ.Sound) (h : σ.Inv s ρ e) (hc : c ∈ σ.words)
    (hd : deref σ.src n c = some v) (he : Avoids σ e n v) (hok : MeetsOk σ ρ (Through σ.src c)) :
    ∃ v', deref s.mem (n + 1) c = some v' ∧ σ.Stands s.mem ρ e v v' ∧
      (c.isattv = true → v'.isattv = true ∨ ∃ a, .attv a ∈ σ.words ∧ σ.src a ≠ .ref a) := by
  induction n generalizing c with
  | zero => cases hd
  | succ n ih =>
    have hnext : Avoids σ e n v := fun x hx =>
      (he x hx).imp_right fun h => ⟨h.1, fun m hm => h.2 m (Nat.lt_succ_of_lt hm)⟩
    cases c with
    | ref a =>
      obtain ⟨ha, hstep⟩ := hg.ref a hc
      by_cases hfree : σ.src a = .ref a
      · rw [deref, if_pos hfree] at hd
        cases hd
        cases h.cells a ha with
        | kept hm _ _ hnone =>
          refine ⟨.ref a, by rw [deref, if_pos (hm.trans hfree)],
            .same fun _ => ⟨(hnone hfree).1, hm.trans hfree⟩, ?_⟩
          exact fun h => by cases h
        | str hs => cases hs.symm.trans hfree
        | @head d hm hρ =>
          refine ⟨.list d, ?_, hok.stands .ref hρ (he.not_free hfree) ?_,
            fun h => by cases h⟩
          · rw [deref, if_neg (by rw [hm]; exact Cell.noConfusion), hm]
            rfl
          · exact ⟨1, by rw [hfree, deref, if_pos hfree]⟩
        | @var d _ hm hρ =>
          have hp := h.pairs _ _ hρ
          cases hp with
          | ref _ _ hown _ hcell =>
            have hne : d ≠ a := by
              rintro rfl
              rcases hown with rfl | hown
              · exact hσ.top_old ha
              · exact hσ.not_old _ _ hown ha
            refine ⟨.ref d, ?_, .image rfl hρ, fun h => by cases h⟩
            rw [deref, if_neg (by rw [hm]; exact fun h => hne (Cell.ref.inj h)), hm, deref,
              if_pos hcell]
        | attv _ _ hρ =>
          cases h.pairs _ _ hρ with
          | attv hword _ _ _ => exact absurd hfree (hg.separate a hc hword)
      · rw [deref, if_neg hfree] at hd
        have hword := hstep hfree
        cases h.cells a ha with
        | kept hm =>
          obtain ⟨v', hv', hstands, -⟩ := ih hword hd hnext fun y u hy => hok y u (.next hfree hy)
          refine ⟨v', ?_, hstands, fun h => by cases h⟩
          rw [deref, if_neg (by rw [hm]; exact hfree), hm]
          exact hv'
        | str hs =>
          rw [hs] at hword
          exact absurd hword (hg.functor _)
        | @head d hm hρ =>
          refine ⟨.list d, ?_, hok.stands .ref hρ (he.not_read hd) ⟨n, hd⟩,
            fun h => by cases h⟩
          rw [deref, if_neg (by rw [hm]; exact Cell.noConfusion), hm]
          rfl
        | var hs | attv hs => exact absurd hs hfree
    | attv a =>
      obtain ⟨ha, hstep⟩ := hg.attv a hc
      by_cases hfree : σ.src a = .ref a
      · rw [deref, if_pos hfree] at hd
        cases hd
        cases h.cells a ha with
        | kept hm _ _ hnone =>
          refine ⟨.attv a, by rw [deref, if_pos (hm.trans hfree)],
            .same fun _ => ⟨(hnone hfree).2, hm.trans hfree⟩, ?_⟩
          exact fun _ => .inl rfl
        | str hs => cases hs.symm.trans hfree
        | head hm hρ =>
          cases h.pairs _ _ hρ with
          | list hword hint _ =>
            have hhead := (hg.list a hword hint).2.1.1
            rw [hfree] at hhead
            exact absurd hfree (hg.separate a hhead hc)
        | var _ _ hρ =>
          cases h.pairs _ _ hρ with
          | ref hword _ _ _ _ => exact absurd hfree (hg.separate a hword hc)
        | @attv d _ hm hρ =>
          cases h.pairs _ _ hρ with
          | attv _ _ _ hcell =>
            refine ⟨.attv d, ?_, .image rfl hρ, fun _ => .inl rfl⟩
            rw [deref, if_neg (by rw [hm]; exact Cell.noConfusion), hm, deref, if_pos hcell]
      · rw [deref, if_neg hfree] at hd
        have hword := hstep hfree
        have hbound : ∃ a, .attv a ∈ σ.words ∧ σ.src a ≠ .ref a := ⟨a, hc, hfree⟩
        cases h.cells a ha with
        | kept hm =>
          obtain ⟨v', hv', hstands, -⟩ := ih hword hd hnext fun y u hy => hok y u (.bound hfree hy)
          refine ⟨v', ?_, hstands, fun _ => .inr hbound⟩
          rw [deref, if_neg (by rw [hm]; exact hfree), hm]
          exact hv'
        | str hs =>
          rw [hs] at hword
          exact absurd hword (hg.functor _)
        | @head d hm hρ =>
          refine ⟨.list d, ?_, hok.stands .attv hρ (he.not_read hd) ⟨n, hd⟩,
            fun _ => .inr hbound⟩
          rw [deref, if_neg (by rw [hm]; exact Cell.noConfusion), hm]
          rfl
        | var hs | attv hs => exact absurd hs hfree
    | _ =>
      cases hd
      exact ⟨_, rfl, .same (fun h => by cases h), fun h => by cases h⟩

/-- The bound on the chains is enough where marks may be met. -/
theorem Inv.deref_word (hg : σ.Graph) (hσ : σ.Sound) (h : σ.Inv s ρ e) (hc : c ∈ σ.words)
    (hv : EndsAt σ.src c v)
    (he : ∀ x, e = some x → ¬EndsAt σ.src (σ.src x) v ∨ c = σ.src x ∧ σ.src x ≠ .ref x)
    (hok : MeetsOk σ ρ (Through σ.src c)) :
    ∃ v', deref s.mem σ.len c = some v' ∧ σ.Stands s.mem ρ e v v' ∧
      (c.isattv = true → v'.isattv = true ∨ ∃ a, .attv a ∈ σ.words ∧ σ.src a ≠ .ref a) := by
  classical
  obtain ⟨u, hu⟩ := hg.ends c hc
  cases hv.unique ⟨_, hu⟩
  have hex : ∃ n, deref σ.src n c = some v := ⟨_, hu⟩
  have hle : Nat.find hex ≤ σ.len - 1 := Nat.find_min' hex hu
  have hpos : Nat.find hex ≠ 0 := by
    intro hzero
    have hspec := Nat.find_spec hex
    rw [hzero] at hspec
    cases hspec
  have havoids : Avoids σ e (Nat.find hex) v := by
    intro x hx
    refine (he x hx).imp_right ?_
    rintro ⟨rfl, hne⟩
    refine ⟨hne, fun m hm => ?_⟩
    cases hd : deref σ.src m (σ.src x) with
    | none => rfl
    | some w =>
      cases hv.unique ⟨_, hd⟩
      exact absurd hd (Nat.find_min hex hm)
  obtain ⟨v', hv', hstands⟩ := h.deref_stands hg hσ hc (Nat.find_spec hex) havoids hok
  exact ⟨v', deref_mono hv' (by omega), hstands⟩

theorem Graph.two_le_len (hg : σ.Graph) (hc : c ∈ σ.words) : 2 ≤ σ.len := by
  obtain ⟨w, hw⟩ := hg.ends c hc
  by_contra hlt
  rw [show σ.len - 1 = 0 by omega] at hw
  cases hw

/-- The word of a cell, as it is found when the cell is copied. -/
theorem Inv.deref_cell (hg : σ.Graph) (hσ : σ.Sound) (h : σ.Inv s ρ e) (hx : x ∈ σ.old)
    (hc : σ.src x ∈ σ.words) (hv : EndsAt σ.src (σ.src x) v)
    (he : ∀ z, e = some z → ¬EndsAt σ.src (σ.src z) v)
    (hok : MeetsOk σ ρ fun y => (Reading.later x).Meets σ.src y) :
    ∃ v', deref s.mem σ.len (s.mem x) = some v' ∧ σ.Stands s.mem ρ e v v' ∧
      ((s.mem x).isattv = true →
        v'.isattv = true ∨ ∃ a, .attv a ∈ σ.words ∧ σ.src a ≠ .ref a) := by
  have hlen := hg.two_le_len hc
  cases h.cells x hx with
  | kept hm =>
    rw [hm]
    exact h.deref_word hg hσ hc hv (fun z hz => .inl (he z hz)) fun y u hy => hok y u (.inr hy)
  | str hs =>
    rw [hs] at hc
    exact absurd hc (hg.functor _)
  | @head d hm hρ =>
    rw [hm]
    refine ⟨.list d, deref_mono (deref_other rfl 0) (by omega), ?_, fun h => by cases h⟩
    exact hok.stands (.inl rfl) hρ (fun hz => he x hz hv) hv
  | @var d hs hm hρ =>
    rw [hs] at hv
    cases hv.unique ⟨1, by rw [deref, if_pos hs]⟩
    cases h.pairs _ _ hρ with
    | ref _ _ _ _ hcell =>
      rw [hm]
      refine ⟨.ref d, deref_mono ?_ (Nat.one_le_of_lt hlen), .image rfl hρ, fun h => by cases h⟩
      rw [deref, if_pos hcell]
  | @attv d hs hm hρ =>
    cases h.pairs _ _ hρ with
    | attv hword _ _ _ =>
      rw [hs] at hc
      exact absurd hs (hg.separate x hc hword)

theorem Inv.cell_enter (hg : σ.Graph) (hσ : σ.Sound) (h : σ.Inv s ρ none) (hx : x ∈ σ.old)
    (hc : σ.src x ∈ σ.words) (hv : EndsAt σ.src (σ.src x) v)
    (hok : MeetsOk σ ρ fun y => (Reading.later x).Meets σ.src y) :
    ∃ c v', σ.K.argument s.mem (s.mem x) = some c ∧ σ.K.enter s.mem c = some v' ∧
      σ.Stands s.mem ρ none v v' := by
  obtain ⟨v', hv', hstands, hattv⟩ := h.deref_cell hg hσ hx hc hv (fun z hz => by cases hz) hok
  obtain ⟨c, harg, henter⟩ := hσ.enter_argument _ _ _ hv' hattv
  exact ⟨c, v', harg, henter, hstands⟩

theorem Stands.enter (hσ : σ.Sound) (h : σ.Inv s ρ e) (hs : σ.Stands s.mem ρ e v w) :
    σ.K.enter s.mem w = some w := by
  apply hσ.enter_end
  intro a ha
  cases hs with
  | same hfree =>
    have hvar : isVar v = true ∧ addr v = a := by
      rcases ha with rfl | rfl <;> exact ⟨rfl, rfl⟩
    rw [← hvar.2]
    exact (hfree hvar.1).2
  | image hvar hρ =>
    cases h.pairs _ _ hρ with
    | ref _ _ _ _ hcell | attv _ _ _ hcell =>
      rcases ha with ha | ha <;> cases ha
      exact hcell
    | list | cs => cases hvar
  | head => rcases ha with ha | ha <;> cases ha

/-! ### Words that are copied at once -/

/-- What a call for a word that dereferences to `v` has done. -/
structure Copied (σ : Setup) (s : CopyState) (ρ : Cell → Option Cell) (dest : Nat) (v : Cell)
    (s' : CopyState) (ρ' : Cell → Option Cell) : Prop where
  step : σ.Step s ρ {dest} (σ.cost v) s' ρ'
  inv : σ.Inv s' ρ' none
  image : σ.Image s'.mem ρ' (σ.Fresh s s') v (s'.mem dest)

theorem Copied.write (hσ : σ.Sound) (h : σ.Inv s ρ e) (hd : σ.Dest s ρ e dest v)
    (hnb : ¬σ.Boxes v) (hcost : σ.cost v = 0) (hw : σ.Plain ρ v w) :
    Copied σ s ρ dest v (s.write dest w) ρ where
  step := by
    rw [hcost]
    exact .write ..
  inv := h.write hσ hd fun _ => hw
  image := by
    rw [s.write_self]
    exact .plain hnb hw

/-- Cells that have not been taken may change. -/
theorem Inv.extend (h : σ.Inv s ρ e)
    (hown : ∀ y, σ.Owned s.space y → σ.Owned s1.space y)
    (hmem : ∀ y, y ∈ σ.old ∨ y = σ.top ∨ σ.Owned s.space y → s1.mem y = s.mem y)
    (htrail : s1.trail = s.trail) (hgood : σ.Good s1.space) : σ.Inv s1 ρ e where
  cells y hy := (h.cells y hy).keep (hmem y (.inl hy)) fun _ _ => rfl
  pairs u w hu := (h.pairs u w hu).mono hown fun _ => hmem _ (.inr (h.pairs u w hu).owned)
  heads x d u hx hxe hu hnb := by
    cases h.pairs _ _ hx with
    | list _ _ hd =>
      rw [hmem d (.inr (.inr hd))]
      exact h.heads x d u hx hxe hu hnb
  inj := h.inj
  apart u w hu y hle hlt := (h.apart u w hu y hle hlt).imp_left (hown y)
  undo htrails y hy := by
    rw [htrail, ← h.undo htrails y hy]
    exact untrail_congr (fun z hz => hmem z (.inl hz)) y hy
  trail := by
    rw [htrail]
    exact h.trail
  good := hgood

theorem Dest.extend (h : σ.Dest s ρ e dest v)
    (hown : ∀ y, σ.Owned s.space y → σ.Owned s1.space y) : σ.Dest s1 ρ e dest v where
  owned := h.owned.imp_right (hown dest)
  copied := h.copied
  clear := h.clear
  head := h.head

/-- A floating-point number that is not boxed. -/
theorem Copied.float (hσ : σ.Sound) (h : σ.Inv s ρ e) {x : Float64}
    (hd : σ.Dest s ρ e dest (.float x)) (hbox : σ.boxed = false) :
    Copied σ s ρ dest (.float x) (σ.K.float x dest s) ρ := by
  obtain ⟨hnone, hgood, hused, howned⟩ := hσ.noBox hbox s.space
  have hnb : ¬σ.Boxes (.float x) := by
    rintro ⟨hb, -⟩
    rw [hbox] at hb
    cases hb
  have hplain : σ.Plain ρ (.float x) (.float x) := by
    rw [Plain, if_pos (show σ.leaf (.float x) = true from rfl)]
  have hinv : σ.Inv { s with space := { s.space with size := s.space.size + σ.K.floatSize } } ρ e :=
    h.extend (fun y hy => (howned y).mpr hy) (fun _ _ => rfl) rfl (hgood h.good)
  rw [Copier.float, hnone]
  refine ⟨?_, hinv.write hσ (hd.extend fun y hy => (howned y).mpr hy) fun _ => hplain, ?_⟩
  · constructor
    case grow => exact fun _ _ hu => hu
    case owned => exact fun y hy => (howned y).mpr hy
    case frame => exact fun y _ hne _ => CopyState.write_of_ne _ _ hne
    case fresh =>
      intro u w hu hnone
      rw [hu] at hnone
      cases hnone
    case done =>
      intro u w hu hnone
      rw [hu] at hnone
      cases hnone
    case sum =>
      rw [CopyState.write_space, hused, cost]
      omega
    case top => exact fun hf => hf.2 ((howned _).mp hf.1)
  · rw [CopyState.write_self]
    exact .plain hnb hplain

/-- A floating-point number that is boxed. -/
theorem Copied.box (hσ : σ.Sound) (h : σ.Inv s ρ e) {x : Float64}
    (hd : σ.Dest s ρ e dest (.float x)) (hbox : σ.boxed = true)
    (hlimit : σ.used s.space + σ.cost (.float x) ≤ σ.limit) :
    Copied σ s ρ dest (.float x) (σ.K.float x dest s) ρ := by
  obtain ⟨hsize, halloc⟩ := hσ.box hbox
  rw [cost, hsize] at hlimit
  obtain ⟨d, sp, hboxes, ha⟩ := halloc s.space h.good hlimit
  let s1 : CopyState := { s with space := sp }.writeBox x d
  have hs1 : σ.K.float x dest s = s1.write dest (.cs d) := by
    rw [Copier.float, hboxes]
  have hother : ∀ y, ¬(d ≤ y ∧ y < d + 4) → s1.mem y = s.mem y :=
    fun y hy => CopyState.writeBox_of_notMem _ x hy
  have hcells : Box s1.mem (fun y => d ≤ y ∧ y < d + 4) x d := by
    obtain ⟨hf, hh, hm, hl⟩ := CopyState.writeBox_cells { s with space := sp } x d
    exact ⟨fun j hj => by omega, hf, hh, hm, hl⟩
  have hinv : σ.Inv s1 ρ e := by
    refine h.extend ha.grow (fun y hy => hother y fun hy' => ?_) rfl ha.good
    rcases hy with hy | hy
    · exact hσ.not_old sp y (ha.owned y (.inr hy')) hy
    · exact ha.notMem hy hy'
  have hfresh : ∀ y, d ≤ y ∧ y < d + 4 → σ.Fresh s (s1.write dest (.cs d)) y := fun y hy =>
    ⟨ha.owned y (.inr hy), fun hy' => ha.notMem (.inr hy') hy⟩
  rw [hs1]
  refine ⟨?_, hinv.write hσ (hd.extend ha.grow) fun hnb => absurd ⟨hbox, rfl⟩ hnb, ?_⟩
  · constructor
    case grow => exact fun _ _ hu => hu
    case owned => exact fun y hy => ha.grow y hy
    case frame =>
      intro y _ hdest hf
      rw [CopyState.write_of_ne _ _ hdest]
      exact hother y fun hy => hf (hfresh y hy)
    case fresh =>
      intro u w hu hnone
      rw [hu] at hnone
      cases hnone
    case done =>
      intro u w hu hnone
      rw [hu] at hnone
      cases hnone
    case sum =>
      have hused := ha.used
      rw [cost, hsize]
      show σ.used sp + _ = _
      omega
    case top =>
      intro hf
      exact hf.2 (ha.top hf.1)
  · rw [CopyState.write_self]
    refine .box hbox (hcells.mono fun y hy => ⟨hfresh y hy, CopyState.write_of_ne _ _ ?_⟩)
    rintro rfl
    exact ha.notMem hd.owned hy

/-- A cell without a mark. -/
theorem Inv.kept (h : σ.Inv s ρ e) (hσ : σ.Sound) (ha : a ∈ σ.old)
    (hm : s.mem a = .ref a) :
    ρ (.list a) = none ∧ ρ (.cs a) = none ∧
      (σ.src a = .ref a → ρ (.ref a) = none ∧ ρ (.attv a) = none) := by
  cases h.cells a ha with
  | kept _ hl hc hfree => exact ⟨hl, hc, hfree⟩
  | str _ hm' | head hm' => cases hm.symm.trans hm'
  | @var d _ hm' hρ =>
    have he := hm.symm.trans hm'
    cases he
    cases h.pairs _ _ hρ with
    | ref _ _ hown _ _ =>
      exfalso
      rcases hown with rfl | hown
      · exact hσ.top_old ha
      · exact hσ.not_old _ _ hown ha
  | attv _ hm' => cases hm.symm.trans hm'

/-- A free variable that has not been copied. -/
theorem Copied.var (hg : σ.Graph) (hσ : σ.Sound) (h : σ.Inv s ρ e)
    (hd : σ.Dest s ρ e dest (.ref a)) (hword : .ref a ∈ σ.words) (hfree : σ.src a = .ref a)
    (hm : s.mem a = .ref a) (hnew : ρ (.ref a) = none) :
    Copied σ s ρ dest (.ref a) ((σ.K.mark s a (.ref dest)).write dest (.ref dest))
      (update ρ (.ref a) (some (.ref dest))) := by
  have ha := (hg.ref a hword).1
  obtain ⟨hl, hc, hattv⟩ := h.kept hσ ha hm
  have hne : a ≠ dest := by
    rintro rfl
    exact hd.not_old hσ ha
  have hmarks : σ.Marks s a (.ref dest)
      ((σ.K.mark s a (.ref dest)).write dest (.ref dest)) := by
    refine ⟨?_, fun y hy hya => ?_, rfl⟩
    · rw [CopyState.write_of_ne _ _ hne, Copier.mark_self]
    · have hyd : y ≠ dest := by
        rintro rfl
        exact hd.not_old hσ hy
      rw [CopyState.write_of_ne _ _ hyd, Copier.mark_of_ne _ _ _ hya]
  have hbinds : Binds σ s ρ dest a ((σ.K.mark s a (.ref dest)).write dest (.ref dest)) := by
    constructor
    case word => exact hword
    case free => exact hfree
    case mem_old => exact ha
    case new => exact hnew
    case space => rfl
    case cell =>
      refine .var hfree hmarks.cell (update_self ..) ?_ ?_ ?_
      · rw [update_of_ne Cell.noConfusion, hl]
      · rw [update_of_ne Cell.noConfusion, hc]
      · rw [update_of_ne Cell.noConfusion, (hattv hfree).2]
    case same => exact hmarks.other
    case written => exact CopyState.write_self ..
    case other =>
      intro y hy hyd
      have hya : y ≠ a := by
        rintro rfl
        exact hy ha
      rw [CopyState.write_of_ne _ _ hyd, Copier.mark_of_ne _ _ _ hya]
    case undo => exact hmarks.undo h.undo
    case trail => exact hmarks.trail_old ha h.trail
  refine ⟨.var hg hbinds, h.var hσ hd hbinds, ?_⟩
  rw [CopyState.write_self]
  refine .plain (fun hb => by cases hb.2) ?_
  rw [Plain, if_neg (by simp [leaf])]
  exact update_self ..

/-! ### Blocks -/

/-- The cells of a block have been taken and the mark has been left, and cells among the new ones
have been written. -/
theorem taken_of (hσ : σ.Sound) (hd : σ.Dest s ρ e dest v) (ha : addr v ∈ σ.old)
    {sp : Space} (hpos : 0 < n) (halloc : σ.Alloc n s.space d sp) (haddr : addr w = d)
    (hspace : s1.space = sp) (hwa : s1.mem (addr v) = w) (hwd : s1.mem dest = w)
    (hother : ∀ y, y ≠ addr v → y ≠ dest → ¬(d ≤ y ∧ y < d + n) → s1.mem y = s.mem y)
    (htrail : s1.trail = if σ.K.trails then (addr v, s.mem (addr v)) :: s.trail else s.trail) :
    Taken σ s dest v w n d s1 where
  marks := by
    refine ⟨hwa, fun y hy hya => hother y hya ?_ fun hr => ?_, htrail⟩
    · rintro rfl
      exact hd.not_old hσ hy
    · exact hσ.not_old sp y (halloc.owned y (.inr hr)) hy
  addr_eq := haddr
  written := hwd
  pos := hpos
  alloc := by
    rw [hspace]
    exact halloc
  other y hy hyd hr := by
    refine hother y ?_ hyd hr
    rintro rfl
    exact hy ha

/-- The word `v` is met where what `ρ` tells has been copied. -/
abbrev scan (σ : Setup) (ρ : Cell → Option Cell) (todo : List Reading) (v : Cell) : Scan :=
  Scan.enter σ.K.isinternstr σ.src ⟨met ρ, todo⟩ v

abbrev Reads (σ : Setup) (S S' : Scan) : Prop := Scan.Reads σ.K.isinternstr σ.src S S'

abbrev Safe (σ : Setup) (S : Scan) : Prop := Scan.Safe σ.K.isinternstr σ.src σ.AliasOk S

/-- Nothing is read where a word is copied as it is, or has been copied. -/
theorem Plain.scan_eq (h : σ.Plain ρ v w) : σ.scan ρ todo v = ⟨met ρ, todo⟩ := by
  unfold Plain at h
  split at h
  next hleaf =>
    refine Scan.enter_of_leaf ?_
    cases v with
    | int i | float x | string x => rfl
    | list a | cs a => exact if_pos hleaf
    | _ => cases hleaf
  next => exact Scan.enter_of_seen (met_of_some h)

theorem scan_new {rs : List Reading} (hnew : ρ v = none)
    (hv : readings σ.K.isinternstr σ.src v = some rs) (w : Cell) :
    σ.scan ρ todo v = ⟨met (update ρ v (some w)), rs ++ todo⟩ := by
  rw [scan, Scan.enter_of_new (met_of_none hnew) hv, met_update]

theorem Copied.plain (hσ : σ.Sound) (h : σ.Inv s ρ e) (hd : σ.Dest s ρ e dest v)
    (hnb : ¬σ.Boxes v) (hcost : σ.cost v = 0) (hw : σ.Plain ρ v w) :
    Copied σ s ρ dest v (s.write dest w) ρ ∧ σ.Reads (σ.scan ρ todo v) ⟨met ρ, todo⟩ := by
  refine ⟨.write hσ h hd hnb hcost hw, ?_⟩
  rw [hw.scan_eq]
  exact .refl

/-- Calls with the bound `n` are right where less than `n` is left to be copied, and read the cells
in the order of the scan. -/
def Works (σ : Setup) (n : Nat) : Prop :=
  ∀ s ρ e c dest v v' todo, σ.rest ρ < n → σ.used s.space + (σ.rest ρ + σ.cost v) ≤ σ.limit →
    σ.Inv s ρ e → σ.Dest s ρ e dest v → σ.Word v → σ.K.enter s.mem c = some v' →
    σ.Stands s.mem ρ e v v' → σ.Safe (σ.scan ρ todo v) →
    ∃ s' ρ', copyCell σ.K n c dest s = some s' ∧ Copied σ s ρ dest v s' ρ' ∧
      σ.Reads (σ.scan ρ todo v) ⟨met ρ', todo⟩

theorem Graph.cellCost_eq (hg : σ.Graph) (hc : σ.src x ∈ σ.words) (hv : EndsAt σ.src (σ.src x) v) :
    σ.cellCost x = σ.cost v := by
  obtain ⟨u, hu⟩ := hg.ends _ hc
  cases hv.unique ⟨_, hu⟩
  rw [cellCost, deref_mono hu (Nat.sub_le _ _)]

/-- The head of a list that is being entered. -/
theorem Works.head (hg : σ.Graph) (hσ : σ.Sound) (hw : Works σ n) (h : σ.Inv s ρ e)
    (ht : Taken σ s dest (.list a) (.list d) 2 d s1)
    (hinv : σ.Inv s1 (update ρ (.list a) (some (.list d))) (some a))
    (hword : .list a ∈ σ.words) (hint : σ.K.isinternstr (.list a) = false)
    (hnew : ρ (.list a) = none) (hv : EndsAt σ.src (σ.src a) v)
    (hrest : σ.rest (update ρ (.list a) (some (.list d))) < n)
    (hlimit : σ.used s1.space +
      (σ.rest (update ρ (.list a) (some (.list d))) + σ.cost v) ≤ σ.limit)
    (hsafe : σ.Safe ⟨met (update ρ (.list a) (some (.list d))), .head a :: todo⟩) :
    ∃ s2 ρ2, (if s.mem a = .ref a then some (s1.write d (.ref d))
        else (σ.K.argument s1.mem (s.mem a)).bind fun c => copyCell σ.K n c d s1) = some s2 ∧
      Copied σ s1 (update ρ (.list a) (some (.list d))) d v s2 ρ2 ∧
      σ.Reads ⟨met (update ρ (.list a) (some (.list d))), .head a :: todo⟩
        ⟨met ρ2, todo⟩ := by
  obtain ⟨⟨ha, -⟩, ⟨hhead, -⟩, -⟩ := hg.list a hword hint
  have hread : σ.Reads ⟨met (update ρ (.list a) (some (.list d))), .head a :: todo⟩
      (σ.scan (update ρ (.list a) (some (.list d))) todo v) := .read .refl hv
  have hok : MeetsOk σ (update ρ (.list a) (some (.list d))) (Through σ.src (σ.src a)) :=
    fun y u hy => hsafe _ _ _ .refl y u hy
  have hd := Dest.first hσ h ht hv
  have hdown : σ.Owned s1.space d := hd.owned.resolve_left fun htop =>
    ht.alloc.notMem (.inl rfl) (by rw [← htop]; have := ht.pos; omega)
  have hdold : d ∉ σ.old := hσ.not_old _ _ hdown
  have hvword : σ.Word v := ⟨_, hhead, hv⟩
  cases h.cells a ha with
  | kept hm hl hc hfree =>
    by_cases hundef : σ.src a = .ref a
    · rw [hundef] at hv hhead
      cases hv.unique ⟨1, by rw [deref, if_pos hundef]⟩
      have hne : a ≠ d := by
        rintro rfl
        exact hdold ha
      have hbinds : Binds σ s1 (update ρ (.list a) (some (.list d))) d a
          (s1.write d (.ref d)) := by
        constructor
        case word => exact hhead
        case free => exact hundef
        case mem_old => exact ha
        case new => rw [update_of_ne Cell.noConfusion, (hfree hundef).1]
        case space => rfl
        case cell =>
          refine .head (d := d) ?_ ?_ ?_ fun _ => ?_
          · rw [CopyState.write_of_ne _ _ hne]
            exact ht.marks.cell
          · rw [update_of_ne Cell.noConfusion, update_self]
          · rw [update_of_ne Cell.noConfusion, update_of_ne Cell.noConfusion, hc]
          · rw [update_of_ne Cell.noConfusion, update_of_ne Cell.noConfusion,
              (hfree hundef).2]
        case same =>
          intro y hy _
          refine CopyState.write_of_ne _ _ ?_
          rintro rfl
          exact hdold hy
        case written => exact CopyState.write_self ..
        case other => exact fun y _ hyd => CopyState.write_of_ne _ _ hyd
        case undo =>
          intro htrails y hy
          rw [← hinv.undo htrails y hy]
          refine untrail_congr (S := σ.old) (fun z hz => CopyState.write_of_ne _ _ ?_) y hy
          rintro rfl
          exact hdold hz
        case trail => exact hinv.trail
      refine ⟨_, _, if_pos (hm.trans hundef), ⟨.var hg hbinds, hinv.var hσ hd hbinds, ?_⟩, ?_⟩
      · rw [CopyState.write_self]
        refine .plain (fun hb => by cases hb.2) ?_
        rw [Plain, if_neg (by simp [leaf])]
        exact update_self ..
      · rw [scan_new hbinds.new rfl (.ref d)] at hread
        exact hread
    · obtain ⟨v', hv', hstands, hattv⟩ := hinv.deref_word hg hσ hhead hv (fun x hx => by
        cases hx
        exact .inr ⟨rfl, hundef⟩) hok
      obtain ⟨c, harg, henter⟩ := hσ.enter_argument _ _ _ hv' hattv
      obtain ⟨s2, ρ2, hcopy, hcopied, hreads⟩ := hw s1 _ (some a) c d v v' todo hrest hlimit hinv hd
        hvword henter hstands (hsafe.reads hread)
      refine ⟨s2, ρ2, ?_, hcopied, hread.trans hreads⟩
      rw [if_neg (by rw [hm]; exact hundef), hm, harg]
      exact hcopy
  | str hs =>
    rw [hs] at hhead
    exact absurd hhead (hg.functor _)
  | head _ hρ =>
    rw [hnew] at hρ
    cases hρ
  | @var d0 hs hm hρ =>
    rw [hs] at hv
    cases hv.unique ⟨1, by rw [deref, if_pos hs]⟩
    have hρ1 : update ρ (.list a) (some (.list d)) (.ref a) = some (.ref d0) := by
      rw [update_of_ne Cell.noConfusion, hρ]
    cases hinv.pairs _ _ hρ1 with
    | ref _ _ hown _ hcell =>
      have hne : s.mem a ≠ .ref a := by
        rw [hm]
        intro he
        cases he
        rcases hown with rfl | hown
        · exact hσ.top_old ha
        · exact hσ.not_old _ _ hown ha
      have hderef : deref s1.mem σ.len (.ref d0) = some (.ref d0) :=
        deref_mono (by rw [deref, if_pos hcell]) (Nat.one_le_of_lt (hg.two_le_len hhead))
      obtain ⟨c, harg, henter⟩ := hσ.enter_argument _ _ _ hderef fun h => by cases h
      obtain ⟨s2, ρ2, hcopy, hcopied, hreads⟩ := hw s1 _ (some a) c d _ _ todo hrest hlimit hinv hd
        hvword henter (.image rfl hρ1) (hsafe.reads hread)
      refine ⟨s2, ρ2, ?_, hcopied, hread.trans hreads⟩
      rw [if_neg hne, hm, harg]
      exact hcopy
  | attv hs _ hρ =>
    cases h.pairs _ _ hρ with
    | attv hword' _ _ _ =>
      rw [hs] at hhead
      exact absurd hs (hg.separate a hhead hword')

theorem Step.refl (s : CopyState) (ρ : Cell → Option Cell) : σ.Step s ρ T 0 s ρ where
  grow v w h := h
  owned y hy := hy
  frame y _ _ _ := rfl
  fresh v w hv hnone := by
    rw [hv] at hnone
    cases hnone
  done v w hv hnone := by
    rw [hv] at hnone
    cases hnone
  sum := rfl
  top hf := hf.2 hf.1

theorem Step.rest_le (h : σ.Step s ρ T k s' ρ') : σ.rest ρ' ≤ σ.rest ρ := rest_mono h.grow

/-- A block whose cells have been filled. -/
theorem Copied.block (hσ : σ.Sound) (hd : σ.Dest s ρ e dest v) (hb : Block σ ρ v)
    (ht : Taken σ s dest v w n d s1) (hv : v ∈ σ.blocks) (hweight : σ.weight v = n + k)
    (hstep : σ.Step s1 (update ρ v (some w)) T k s2 ρ2)
    (hT : ∀ y ∈ T, d ≤ y ∧ y < d + n) (hdone : σ.BlockDone s2.mem ρ2 (σ.Fresh s s2) v w)
    (hinv : σ.Inv s2 ρ2 none) : Copied σ s ρ dest v s2 ρ2 := by
  obtain ⟨hstep', hdest⟩ := Step.block hσ hd ht hb.new hv hweight hstep hT hdone
  have hcost : σ.cost v = 0 := by
    cases v with
    | float x => cases hb.leaf
    | _ => rfl
  refine ⟨by rw [hcost]; exact hstep', hinv, ?_⟩
  rw [hdest]
  refine .plain hb.not_boxes ?_
  rw [Plain, if_neg (by rw [hb.leaf]; exact false_ne_true)]
  exact hstep.grow v w (update_self ..)

/-- New cells of a block. -/
theorem Taken.fresh (ht : Taken σ s dest v w n d s1) (hown : ∀ y, σ.Owned s1.space y →
    σ.Owned s2.space y) (hy : d ≤ y ∧ y < d + n) : σ.Owned s1.space y ∧ σ.Fresh s s2 y := by
  have hy1 := ht.alloc.owned y (.inr hy)
  exact ⟨hy1, hown y hy1, fun hy' => ht.alloc.notMem (.inr hy') hy⟩

/-- What has been done to the cell `y` stays done in later steps. -/
theorem CellDone.later (hσ : σ.Sound) (hstep : σ.Step s1 ρ1 T k s2 ρ2)
    (hown : ∀ y, σ.Owned s.space y → σ.Owned s'.space y) (hT : ∀ z ∈ T, σ.Owned s'.space z)
    (hy : σ.Owned s1.space y) (hyT : y ∉ T)
    (h : σ.CellDone s1.mem ρ1 (σ.Fresh s' s1) x y) :
    σ.CellDone s2.mem ρ2 (σ.Fresh s s2) x y := by
  refine h.mono hstep.grow (fun z hz => ⟨⟨hstep.owned z hz.1, fun hz' => hz.2 (hown z hz')⟩, ?_⟩)
    (hstep.keep hσ hyT hy)
  exact hstep.keep hσ (fun hzT => hz.2 (hT z hzT)) hz.1

/-- A list that has not been copied. -/
theorem Works.list (hg : σ.Graph) (hσ : σ.Sound) (hw : Works σ n) (h : σ.Inv s ρ e)
    (hd : σ.Dest s ρ e dest (.list a)) (hword : .list a ∈ σ.words)
    (hint : σ.K.isinternstr (.list a) = false) (hnew : ρ (.list a) = none)
    (hrest : σ.rest ρ < n + 1) (hlimit : σ.used s.space + σ.rest ρ ≤ σ.limit)
    (hsafe : σ.Safe (σ.scan ρ todo (.list a))) :
    ∃ s' ρ', (
        let q := s.mem a
        let (d, space) := σ.K.allocPair s.space
        let s := σ.K.mark ({ s with space := space }.write dest (.list d)) a (.list d)
        let head :=
          if q = .ref a then some (s.write d (.ref d))
          else (σ.K.argument s.mem q).bind fun c => copyCell σ.K n c d s
        head.bind fun s =>
          (σ.K.argument s.mem (s.mem (a + 1))).bind fun c => copyCell σ.K n c (d + 1) s) = some s' ∧
      Copied σ s ρ dest (.list a) s' ρ' ∧ σ.Reads (σ.scan ρ todo (.list a)) ⟨met ρ', todo⟩ := by
  obtain ⟨⟨ha, ha'⟩, ⟨hhead, htail⟩, hblocks, -⟩ := hg.list a hword hint
  obtain ⟨vh, hvh⟩ := hg.ends_at hhead
  obtain ⟨vt, hvt⟩ := hg.ends_at htail
  have hweight : σ.weight (.list a) = 2 + (σ.cost vh + σ.cost vt) := by
    rw [weight, hg.cellCost_eq hhead hvh, hg.cellCost_eq htail hvt]
  have hsum := fun w => rest_update (w := w) hblocks hnew
  have halloc := hσ.allocPair s.space h.good (by have := hsum (.ref 0); omega)
  generalize σ.K.allocPair s.space = p at halloc ⊢
  obtain ⟨d, sp⟩ := p
  have hne : a ≠ dest := by
    rintro rfl
    exact hd.not_old hσ ha
  let s1 := σ.K.mark ({ s with space := sp }.write dest (.list d)) a (.list d)
  have ht : Taken σ s dest (.list a) (.list d) 2 d s1 := by
    refine taken_of hσ hd ha Nat.two_pos halloc rfl rfl (Copier.mark_self ..) ?_ ?_ ?_
    · rw [Copier.mark_of_ne _ _ _ hne.symm, CopyState.write_self]
    · intro y hya hyd _
      have hya' : y ≠ a := hya
      rw [Copier.mark_of_ne _ _ _ hya', CopyState.write_of_ne _ _ hyd]
    · rw [Copier.mark_trail, CopyState.write_of_ne _ _ hne]
      rfl
  have hb : Block σ ρ (.list a) := ⟨hint, rfl, ha, hnew⟩
  have hrange : ∀ j < 2, d ≤ d + j ∧ d + j < d + 2 := fun j hj => by omega
  have hinv1 : σ.Inv s1 (update ρ (.list a) (some (.list d))) (some a) := by
    refine h.block hσ hd hb ht (.list hword hint (ht.fresh (fun _ h => h) (hrange 0 (by omega))).1)
      ?_ rfl fun x hx => by cases hx; rfl
    have hcells : ρ (.cs a) = none ∧ (σ.src a = .ref a → ρ (.attv a) = none) := by
      cases h.cells a ha with
      | kept _ _ hc hfree => exact ⟨hc, fun hs => (hfree hs).2⟩
      | str hs =>
        rw [hs] at hhead
        exact absurd hhead (hg.functor _)
      | head _ hρ =>
        rw [hnew] at hρ
        cases hρ
      | var _ _ _ _ hc hattv => exact ⟨hc, fun _ => hattv⟩
      | attv hs _ hρ =>
        cases h.pairs _ _ hρ with
        | attv hword' _ _ _ =>
          rw [hs] at hhead
          exact absurd hs (hg.separate a hhead hword')
    refine .head (d := d) ht.marks.cell (update_self ..) ?_ fun hs => ?_
    · rw [update_of_ne Cell.noConfusion]
      exact hcells.1
    · rw [update_of_ne Cell.noConfusion]
      exact hcells.2 hs
  have hs1 := hsum (.list d)
  have hused := ht.alloc.used
  have hscan : σ.scan ρ todo (.list a) = ⟨met (update ρ (.list a) (some (.list d))),
      .head a :: .later (a + 1) :: todo⟩ := by
    have hreadings : readings σ.K.isinternstr σ.src (.list a) =
        some [.head a, .later (a + 1)] := by
      rw [readings, if_neg (by rw [hint]; exact false_ne_true)]
    exact scan_new hnew hreadings _
  rw [hscan] at hsafe ⊢
  obtain ⟨s2, ρ2, hcopy, hc1, hreads1⟩ :=
    hw.head hg hσ h ht hinv1 hword hint hnew hvh (by omega) (by omega) hsafe
  have hsafe1 := hsafe.reads hreads1
  have hread : σ.Reads ⟨met ρ2, .later (a + 1) :: todo⟩ (σ.scan ρ2 todo vt) := .read .refl hvt
  have hd2 : σ.Dest s2 ρ2 none (d + 1) vt :=
    Dest.later hσ h ht hc1.step (by omega) (by simp) vt
  obtain ⟨c, v', harg, henter, hstands⟩ := hc1.inv.cell_enter hg hσ ha' htail hvt
    fun y u hy => hsafe1 _ _ _ .refl y u hy
  have hsum1 := hc1.step.sum
  have hmono := hc1.step.rest_le
  obtain ⟨s3, ρ3, hcopy', hc2, hreads2⟩ := hw s2 ρ2 none c (d + 1) vt v' todo (by omega) (by omega)
    hc1.inv hd2 ⟨_, htail, hvt⟩ henter hstands (hsafe1.reads hread)
  refine ⟨s3, ρ3, ?_, ?_, hreads1.trans (hread.trans hreads2)⟩
  · show Option.bind _ _ = _
    rw [hcopy, Option.bind_some, harg]
    exact hcopy'
  · have hown : ∀ y, σ.Owned s1.space y → σ.Owned s3.space y := fun y hy =>
      hc2.step.owned y (hc1.step.owned y hy)
    have h0 := ht.fresh hown (hrange 0 (by omega))
    have h1 := ht.fresh hown (hrange 1 (by omega))
    have hstep := hc1.step.trans hσ hc2.step (by
      intro y hy hf
      rw [Set.mem_singleton_iff.mp hy] at hf
      exact hf.2 h1.1)
    refine Copied.block hσ hd hb ht hblocks hweight hstep ?_ ?_ hc2.inv
    · rintro y (hy | hy)
      · rw [Set.mem_singleton_iff.mp hy]
        omega
      · rw [Set.mem_singleton_iff.mp hy]
        omega
    · have hdone1 : σ.CellDone s2.mem ρ2 (σ.Fresh s1 s2) a d := ⟨vh, hvh, hc1.image⟩
      have hdone2 : σ.CellDone s3.mem ρ3 (σ.Fresh s2 s3) (a + 1) (d + 1) := ⟨vt, hvt, hc2.image⟩
      refine .list h0.2 h1.2 ?_ ?_
      · refine hdone1.later hσ hc2.step ht.alloc.grow ?_ (hc1.step.owned _ h0.1) (by simp)
        intro z hz
        rw [Set.mem_singleton_iff.mp hz]
        exact h1.1
      · exact hdone2.mono (fun _ _ h => h) (fun z hz => ⟨hz.trans_left fun y hy =>
          hc1.step.owned y (ht.alloc.grow y hy), rfl⟩) rfl

/-- The first arguments of a structure. -/
theorem Works.args {psc : Psc} (hg : σ.Graph) (hσ : σ.Sound) (hw : Works σ n)
    (h : σ.Inv s ρ e) (ht : Taken σ s dest (.cs a) (.cs d) (psc.arity + 1) d s1)
    (hinv : σ.Inv s1 (update ρ (.cs a) (some (.cs d))) none)
    (hargs : ∀ j < psc.arity, a + 1 + j ∈ σ.old ∧ σ.src (a + 1 + j) ∈ σ.words)
    (hrest : σ.rest (update ρ (.cs a) (some (.cs d))) < n)
    (hlimit : σ.used s1.space + (σ.rest (update ρ (.cs a) (some (.cs d))) +
      ∑ j ∈ Finset.range psc.arity, σ.cellCost (a + 1 + j)) ≤ σ.limit)
    (hsafe : σ.Safe ⟨met (update ρ (.cs a) (some (.cs d))),
      (List.range psc.arity).map (fun j => .later (a + 1 + j)) ++ todo⟩)
    {m : Nat} (hm : m ≤ psc.arity) :
    ∃ s2 ρ2, (List.range m).foldlM (fun s j => (σ.K.argument s.mem (s.mem (a + 1 + j))).bind
        fun c => copyCell σ.K n c (d + 1 + j) s) s1 = some s2 ∧
      σ.Step s1 (update ρ (.cs a) (some (.cs d))) {y | d < y ∧ y < d + 1 + m}
        (∑ j ∈ Finset.range m, σ.cellCost (a + 1 + j)) s2 ρ2 ∧
      σ.Inv s2 ρ2 none ∧
      (∀ j < m, σ.CellDone s2.mem ρ2 (σ.Fresh s1 s2) (a + 1 + j) (d + 1 + j)) ∧
      σ.Reads ⟨met (update ρ (.cs a) (some (.cs d))),
          (List.range psc.arity).map (fun j => .later (a + 1 + j)) ++ todo⟩
        ⟨met ρ2, ((List.range psc.arity).map fun j => .later (a + 1 + j)).drop m ++ todo⟩ := by
  induction m with
  | zero => exact ⟨s1, _, rfl, .refl _ _, hinv, fun j hj => absurd hj (Nat.not_lt_zero j), .refl⟩
  | succ m ih =>
    obtain ⟨s2, ρ2, hfold, hstep, hinv2, hdone, hreads⟩ := ih (Nat.le_of_succ_le hm)
    have hnext : ((List.range psc.arity).map fun j => Reading.later (a + 1 + j)).drop m =
        .later (a + 1 + m) ::
          ((List.range psc.arity).map fun j => Reading.later (a + 1 + j)).drop (m + 1) := by
      rw [drop_eq_getElem_cons (by rw [length_map, length_range]; exact hm),
        getElem_map, getElem_range]
    rw [hnext] at hreads
    have hsafe2 := hsafe.reads hreads
    obtain ⟨hold, harg⟩ := hargs m hm
    obtain ⟨v, hv⟩ := hg.ends_at harg
    obtain ⟨c, v', hc, henter, hstands⟩ :=
      hinv2.cell_enter hg hσ hold harg hv fun y u hy => hsafe2 _ _ _ .refl y u hy
    have hread := Scan.Reads.read hreads hv
    have hd : σ.Dest s2 ρ2 none (d + 1 + m) v := by
      refine Dest.later hσ h ht hstep (by omega) (fun hy => ?_) v
      have hlt : d + 1 + m < d + 1 + m := hy.2
      omega
    have hsum := hstep.sum
    have hle := hstep.rest_le
    have hcosts : ∑ j ∈ Finset.range (m + 1), σ.cellCost (a + 1 + j) ≤
        ∑ j ∈ Finset.range psc.arity, σ.cellCost (a + 1 + j) :=
      Finset.sum_le_sum_of_subset (Finset.range_subset_range.mpr hm)
    rw [Finset.sum_range_succ, hg.cellCost_eq harg hv] at hcosts
    obtain ⟨s3, ρ3, hcopy, hcopied, hreads'⟩ := hw s2 ρ2 none c (d + 1 + m) v v' _ (by omega)
      (by omega) hinv2 hd ⟨_, harg, hv⟩ henter hstands (hsafe.reads hread)
    have hy1 : σ.Owned s1.space (d + 1 + m) :=
      ht.alloc.owned _ (.inr (by omega))
    have hT : ({y | d < y ∧ y < d + 1 + m} ∪ {d + 1 + m} : Set Nat) =
        {y | d < y ∧ y < d + 1 + (m + 1)} := by
      ext y
      simp only [Set.mem_union, Set.mem_ofPred_eq, Set.mem_singleton_iff]
      omega
    have hstep' := hstep.trans hσ hcopied.step (by
      intro y hy hf
      rw [Set.mem_singleton_iff.mp hy] at hf
      exact hf.2 hy1)
    rw [hT, ← hg.cellCost_eq harg hv, ← Finset.sum_range_succ] at hstep'
    refine ⟨s3, ρ3, ?_, hstep', hcopied.inv, fun j hj => ?_, hread.trans hreads'⟩
    · rw [range_succ, foldlM_append, hfold]
      simp [hc, hcopy]
    · rcases Nat.lt_succ_iff_lt_or_eq.mp hj with hj | rfl
      · have hyj : σ.Owned s1.space (d + 1 + j) := ht.alloc.owned _ (.inr (by omega))
        refine (hdone j hj).later hσ hcopied.step (fun _ hy => hy) ?_ (hstep.owned _ hyj) ?_
        · intro z hz
          rw [Set.mem_singleton_iff.mp hz]
          exact hy1
        · rw [Set.mem_singleton_iff]
          omega
      · exact CellDone.mono (fun _ _ h => h) (fun z hz => ⟨hz.trans_left hstep.owned, rfl⟩) rfl
          ⟨v, hv, hcopied.image⟩

/-- A structure that has not been copied. -/
theorem Works.struct {psc : Psc} (hg : σ.Graph) (hσ : σ.Sound) (hw : Works σ n)
    (h : σ.Inv s ρ e) (hd : σ.Dest s ρ e dest (.cs a)) (hword : .cs a ∈ σ.words)
    (hint : σ.K.isinternstr (.cs a) = false) (hm : s.mem a = .functor psc)
    (hrest : σ.rest ρ < n + 1) (hlimit : σ.used s.space + σ.rest ρ ≤ σ.limit)
    (hsafe : σ.Safe (σ.scan ρ todo (.cs a))) :
    ∃ s' ρ', (
        let (d, space) := σ.K.allocStruct psc.arity s.space
        let s := { s with space := space }.write dest (.cs d)
        let s := σ.K.mark (s.write d (.functor psc)) a (.cs d)
        (List.range psc.arity).foldlM (fun s j => (σ.K.argument s.mem (s.mem (a + 1 + j))).bind
          fun c => copyCell σ.K n c (d + 1 + j) s) s) = some s' ∧
      Copied σ s ρ dest (.cs a) s' ρ' ∧ σ.Reads (σ.scan ρ todo (.cs a)) ⟨met ρ', todo⟩ := by
  obtain ⟨ha, hblocks, psc', hsrc, harity, hargs⟩ := hg.cs a hword hint
  obtain ⟨hnew, hl, hpsc⟩ : ρ (.cs a) = none ∧ ρ (.list a) = none ∧ σ.src a = .functor psc := by
    cases h.cells a ha with
    | kept hm' hl hc _ => exact ⟨hc, hl, hm'.symm.trans hm⟩
    | str _ hm' | head hm' | var _ hm' | attv _ hm' => cases hm'.symm.trans hm
  cases hpsc.symm.trans hsrc
  have hweight : σ.weight (.cs a) = psc.arity + 1 +
      ∑ j ∈ Finset.range psc.arity, σ.cellCost (a + 1 + j) := by
    simp only [weight, hsrc]
  have hsum := fun w => rest_update (w := w) hblocks hnew
  have halloc := hσ.allocStruct s.space psc.arity h.good harity (by have := hsum (.ref 0); omega)
  generalize σ.K.allocStruct psc.arity s.space = p at halloc ⊢
  obtain ⟨d, sp⟩ := p
  have hne : a ≠ dest := by
    rintro rfl
    exact hd.not_old hσ ha
  have hdown : σ.Owned sp d := halloc.owned d (.inr (by omega))
  have had : a ≠ d := by
    rintro rfl
    exact hσ.not_old _ _ hdown ha
  have hdd : dest ≠ d := by
    rintro rfl
    exact halloc.notMem hd.owned (by omega)
  let s1 := σ.K.mark (({ s with space := sp }.write dest (.cs d)).write d (.functor psc)) a (.cs d)
  have ht : Taken σ s dest (.cs a) (.cs d) (psc.arity + 1) d s1 := by
    refine taken_of hσ hd ha (Nat.succ_pos _) halloc rfl rfl (Copier.mark_self ..) ?_ ?_ ?_
    · rw [Copier.mark_of_ne _ _ _ hne.symm, CopyState.write_of_ne _ _ hdd, CopyState.write_self]
    · intro y hya hyd hr
      have hya' : y ≠ a := hya
      rw [Copier.mark_of_ne _ _ _ hya', CopyState.write_of_ne _ _ (by omega),
        CopyState.write_of_ne _ _ hyd]
    · rw [Copier.mark_trail, CopyState.write_of_ne _ _ had, CopyState.write_of_ne _ _ hne]
      rfl
  have hb : Block σ ρ (.cs a) := ⟨hint, rfl, ha, hnew⟩
  have hcell : σ.CellState s1.mem (update ρ (.cs a) (some (.cs d))) a := by
    refine .str hsrc ht.marks.cell (update_self ..) ?_
    rw [update_of_ne Cell.noConfusion, hl]
  have hinv1 : σ.Inv s1 (update ρ (.cs a) (some (.cs d))) none :=
    h.block hσ hd hb ht (.cs hword hint hdown) hcell (by simp only [blockSize, hsrc])
      fun x hx => by cases hx
  have hs1 := hsum (.cs d)
  have hused := ht.alloc.used
  have hscan : σ.scan ρ todo (.cs a) = ⟨met (update ρ (.cs a) (some (.cs d))),
      (List.range psc.arity).map (fun j => .later (a + 1 + j)) ++ todo⟩ := by
    have hreadings : readings σ.K.isinternstr σ.src (.cs a) =
        some ((List.range psc.arity).map fun j => .later (a + 1 + j)) := by
      rw [readings, if_neg (by rw [hint]; exact false_ne_true), hsrc]
    exact scan_new hnew hreadings _
  rw [hscan] at hsafe ⊢
  obtain ⟨s2, ρ2, hfold, hstep, hinv2, hdone, hreads⟩ :=
    hw.args hg hσ h ht hinv1 hargs (by omega) (by omega) hsafe le_rfl
  rw [drop_of_length_le (by simp), nil_append] at hreads
  refine ⟨s2, ρ2, hfold, Copied.block hσ hd hb ht hblocks hweight hstep ?_ ?_ hinv2, hreads⟩
  · rintro y ⟨hlt, hlt'⟩
    omega
  · have hcellF : s1.mem d = .functor psc := by
      rw [Copier.mark_of_ne _ _ _ had.symm, CopyState.write_self]
    refine .cs hsrc ?_ (fun j hj => (ht.fresh hstep.owned (by omega)).2) fun j hj => ?_
    · rw [hstep.keep hσ (fun hy => absurd hy.1 (lt_irrefl d)) hdown]
      exact hcellF
    · exact (hdone j hj).mono (fun _ _ h => h)
        (fun z hz => ⟨hz.trans_left ht.alloc.grow, rfl⟩) rfl

/-- An attributed variable that has not been copied. -/
theorem Works.attv (hg : σ.Graph) (hσ : σ.Sound) (hw : Works σ n) (h : σ.Inv s ρ e)
    (hd : σ.Dest s ρ e dest (.attv a)) (hword : .attv a ∈ σ.words) (hfree : σ.src a = .ref a)
    (hm : s.mem a = .ref a) (hnew : ρ (.attv a) = none) (hrest : σ.rest ρ < n + 1)
    (hlimit : σ.used s.space + σ.rest ρ ≤ σ.limit) (hsafe : σ.Safe (σ.scan ρ todo (.attv a))) :
    ∃ s' ρ', ((σ.K.attr s.mem (s.mem (a + 1))).bind fun c =>
        let (d, space) := σ.K.allocPair s.space
        let s := σ.K.mark ({ s with space := space }.write dest (.attv d)) a (.attv d)
        copyCell σ.K n c (d + 1) (s.write d (.ref d))) = some s' ∧
      Copied σ s ρ dest (.attv a) s' ρ' ∧ σ.Reads (σ.scan ρ todo (.attv a)) ⟨met ρ', todo⟩ := by
  obtain ⟨ha', harg, hblocks, hown⟩ := hg.free a hword hfree
  have ha := (hg.attv a hword).1
  obtain ⟨v, hv⟩ := hg.ends_at harg
  have hself : v ≠ .attv a := by
    rintro rfl
    exact hown hv
  have hvword : σ.Word v := ⟨_, harg, hv⟩
  have hscan : ∀ d, σ.scan ρ todo (.attv a) =
      ⟨met (update ρ (.attv a) (some (.attv d))), .later (a + 1) :: todo⟩ := by
    exact fun d => scan_new hnew rfl _
  have hok : MeetsOk σ ρ fun y => (Reading.later (a + 1)).Meets σ.src y := by
    intro y u hy hmet
    rw [hscan 0, met_update] at hsafe
    refine hsafe _ _ _ .refl y u hy ?_
    rw [update_of_ne Cell.noConfusion]
    exact hmet
  -- The cell whose list is being entered leads to the variable itself, its attribute does not.
  obtain ⟨v', hv', hstands, -⟩ := h.deref_cell hg hσ ha' harg hv
    (fun z hz hz' => hself (hz'.unique (hd.head z hz).2)) hok
  have hweight : σ.weight (.attv a) = 2 + σ.cost v := by
    rw [weight, hg.cellCost_eq harg hv]
  have hsum := fun w => rest_update (w := w) hblocks hnew
  have halloc := hσ.allocPair s.space h.good (by have := hsum (.ref 0); omega)
  rw [hσ.attr _ _ _ hv', Option.bind_some]
  generalize σ.K.allocPair s.space = p at halloc ⊢
  obtain ⟨d, sp⟩ := p
  have hne : a ≠ dest := by
    rintro rfl
    exact hd.not_old hσ ha
  have hdown : σ.Owned sp d := halloc.owned d (.inr (by omega))
  have had : a ≠ d := by
    rintro rfl
    exact hσ.not_old _ _ hdown ha
  have hdd : dest ≠ d := by
    rintro rfl
    exact halloc.notMem hd.owned (by omega)
  let s1 := (σ.K.mark ({ s with space := sp }.write dest (.attv d)) a (.attv d)).write d (.ref d)
  have ht : Taken σ s dest (.attv a) (.attv d) 2 d s1 := by
    refine taken_of hσ hd ha Nat.two_pos halloc rfl rfl ?_ ?_ ?_ ?_
    · exact (CopyState.write_of_ne _ _ had).trans (Copier.mark_self ..)
    · rw [CopyState.write_of_ne _ _ hdd, Copier.mark_of_ne _ _ _ hne.symm, CopyState.write_self]
    · intro y hya hyd hr
      have hya' : y ≠ a := hya
      rw [CopyState.write_of_ne _ _ (by omega), Copier.mark_of_ne _ _ _ hya',
        CopyState.write_of_ne _ _ hyd]
    · rw [CopyState.write_trail, Copier.mark_trail, CopyState.write_of_ne _ _ hne]
      rfl
  have hb : Block σ ρ (.attv a) := ⟨rfl, rfl, ha, hnew⟩
  obtain ⟨hl, hc, -⟩ := h.kept hσ ha hm
  have hcell : σ.CellState s1.mem (update ρ (.attv a) (some (.attv d))) a := by
    refine .attv hfree ht.marks.cell (update_self ..) ?_ ?_
    · rw [update_of_ne Cell.noConfusion, hl]
    · rw [update_of_ne Cell.noConfusion, hc]
  have hinv1 : σ.Inv s1 (update ρ (.attv a) (some (.attv d))) none :=
    h.block hσ hd hb ht (.attv hword hfree hdown (CopyState.write_self ..)) hcell rfl
      fun x hx => by cases hx
  have hgrow := grow_update (w := .attv d) hnew
  have hstands1 : σ.Stands s1.mem (update ρ (.attv a) (some (.attv d))) none v v' := by
    cases hstands with
    | same hvar =>
      refine .same fun hv => ?_
      obtain ⟨hρ, hcell⟩ := hvar hv
      have hva : addr v ≠ a := by
        cases v with
        | ref b =>
          rintro rfl
          exact hg.separate _ (hg.word_mem hvword) hword hfree
        | attv b =>
          rintro rfl
          exact hself rfl
        | _ => cases hv
      refine ⟨by rw [update_of_ne hself, hρ], ?_⟩
      have hold : addr v ∈ σ.old := by
        cases v with
        | ref b => exact (hg.ref b (hg.word_mem hvword)).1
        | attv b => exact (hg.attv b (hg.word_mem hvword)).1
        | _ => cases hv
      rw [ht.marks.other _ hold hva]
      exact hcell
    | image hvar hρ => exact .image hvar (hgrow _ _ hρ)
    | head hρ _ hx hok => exact .head (hgrow _ _ hρ) (fun hz => by cases hz) hx hok
  have hs1 := hsum (.attv d)
  have hused := ht.alloc.used
  have hd1 : σ.Dest s1 (update ρ (.attv a) (some (.attv d))) none (d + 1) v :=
    Dest.later hσ h ht (Step.refl (T := ∅) _ _) (by omega) (Set.notMem_empty _) v
  rw [hscan d] at hsafe ⊢
  have hread : σ.Reads ⟨met (update ρ (.attv a) (some (.attv d))), .later (a + 1) :: todo⟩
      (σ.scan (update ρ (.attv a) (some (.attv d))) todo v) := .read .refl hv
  obtain ⟨s2, ρ2, hcopy, hcopied, hreads⟩ := hw s1 _ none v' (d + 1) v v' todo (by omega)
    (by omega) hinv1 hd1 hvword (hstands1.enter hσ hinv1) hstands1 (hsafe.reads hread)
  refine ⟨s2, ρ2, hcopy, ?_, hread.trans hreads⟩
  refine Copied.block hσ hd hb ht hblocks hweight hcopied.step ?_ ?_ hcopied.inv
  · intro y hy
    rw [Set.mem_singleton_iff.mp hy]
    omega
  · refine .attv (ht.fresh hcopied.step.owned (by omega)).2
      (ht.fresh hcopied.step.owned (by omega)).2 ?_
    exact CellDone.mono (fun _ _ h => h) (fun z hz => ⟨hz.trans_left ht.alloc.grow, rfl⟩) rfl
      ⟨v, hv, hcopied.image⟩

/-! ### All calls -/

/-- The words in a list that has been copied. -/
theorem Inv.listed (hg : σ.Graph) (hσ : σ.Sound) (h : σ.Inv s ρ e)
    (hword : .list a ∈ σ.words) (hint : σ.K.isinternstr (.list a) = false) :
    σ.K.shared (s.mem a) = true ∧ ρ (.list a) = some (s.mem a) ∨
      σ.K.shared (s.mem a) = false ∧ ρ (.list a) = none := by
  obtain ⟨⟨ha, -⟩, ⟨hhead, -⟩, -, hshared⟩ := hg.list a hword hint
  cases h.cells a ha with
  | kept hm hl =>
    rw [hm]
    exact .inr ⟨hshared, hl⟩
  | str hs =>
    rw [hs] at hhead
    exact absurd hhead (hg.functor _)
  | head hm hρ =>
    rw [hm]
    cases h.pairs _ _ hρ with
    | list _ _ hown => exact .inl ⟨hσ.shared_new _ _ hown, hρ⟩
  | var _ hm _ hl =>
    rw [hm]
    exact .inr ⟨hσ.shared_other _ rfl, hl⟩
  | attv hs _ hρ =>
    cases h.pairs _ _ hρ with
    | attv hword' _ _ _ =>
      rw [hs] at hhead
      exact absurd hs (hg.separate a hhead hword')

/-- The functor cell of a structure that has been copied. -/
theorem Inv.structured (hg : σ.Graph) (h : σ.Inv s ρ e) (hword : .cs a ∈ σ.words)
    (hint : σ.K.isinternstr (.cs a) = false) :
    (∃ d, s.mem a = .cs d ∧ ρ (.cs a) = some (.cs d)) ∨ ∃ psc, s.mem a = .functor psc := by
  obtain ⟨ha, -, psc, hsrc, -⟩ := hg.cs a hword hint
  cases h.cells a ha with
  | kept hm => exact .inr ⟨psc, hm.trans hsrc⟩
  | str _ hm hρ => exact .inl ⟨_, hm, hρ⟩
  | @head d hm hρ =>
    cases h.pairs _ _ hρ with
    | list hword' hint' _ =>
      have hhead := (hg.list a hword' hint').2.1.1
      rw [hsrc] at hhead
      exact absurd hhead (hg.functor _)
  | var hs | attv hs => cases hs.symm.trans hsrc

/-- The mark on the head of a list is found where its head has been copied. -/
theorem Inv.leftover (hσ : σ.Sound) (h : σ.Inv s ρ e) (hρ : ρ (.list x) = some (.list d))
    (he : e ≠ some x) (hx : EndsAt σ.src (σ.src x) v) (hok : σ.AliasOk v) :
    σ.K.leftover s.mem d = true ∧ σ.Plain ρ v (s.mem d) := by
  have hnb : ¬σ.Boxes v := by
    rintro ⟨hb, hf⟩
    rw [(hσ.aliasOk_cost v hok).2 hb] at hf
    cases hf
  have hplain := h.heads x d v hρ he hx hnb
  have hown : σ.Owned s.space d := by
    cases h.pairs _ _ hρ with
    | list _ _ hown => exact hown
  refine ⟨hσ.leftover_new s.space s.mem d v hown hok ?_, hplain⟩
  unfold Plain at hplain
  split at hplain
  next => exact .inl hplain
  next =>
    refine .inr ?_
    generalize s.mem d = w at hplain ⊢
    cases h.pairs _ _ hplain with
    | ref | attv => exact .inl rfl
    | @list _ y _ _ hy => exact .inr ⟨y, hy, .inl rfl⟩
    | @cs _ y _ _ hy => exact .inr ⟨y, hy, .inr rfl⟩

theorem works (hg : σ.Graph) (hσ : σ.Sound) : ∀ n, Works σ n := by
  intro n
  induction n with
  | zero => exact fun s ρ e c dest v v' todo hrest => absurd hrest (Nat.not_lt_zero _)
  | succ n ih =>
    intro s ρ e c dest v v' todo hrest hlimit h hd hv henter hstands hsafe
    have hword := hg.word_mem hv
    rw [copyCell, henter]
    cases hstands with
    | same hfree =>
      cases v with
      | ref a =>
        obtain ⟨hnew, hm⟩ := hfree rfl
        have hcopied := hσ.copied_old a (hg.ref a hword).1
        refine ⟨_, _, ?_, .var hg hσ h hd hword (hv.free (.inl rfl)) hm hnew, ?_⟩
        · simp only [hcopied, false_eq_true, if_false]
        · rw [scan_new hnew rfl (.ref dest)]
          exact .refl
      | attv a =>
        obtain ⟨hnew, hm⟩ := hfree rfl
        have hcopied := hσ.copied_old a (hg.attv a hword).1
        simp only [hcopied, false_eq_true, if_false]
        exact ih.attv hg hσ h hd hword (hv.free (.inr rfl)) hm hnew hrest (by omega) hsafe
      | int i | string x =>
        exact ⟨_, _, rfl, Copied.plain hσ h hd (fun hb ↦ by cases hb.2) rfl (by simp [Plain, leaf])⟩
      | float x =>
        have hscan : σ.scan ρ todo (.float x) = ⟨met ρ, todo⟩ := Scan.enter_of_leaf rfl
        rw [hscan]
        cases hbox : σ.boxed with
        | true => exact ⟨_, _, rfl, .box hσ h hd hbox (by omega), .refl⟩
        | false => exact ⟨_, _, rfl, .float hσ h hd hbox, .refl⟩
      | functor p => exact absurd hword (hg.functor p)
      | list a =>
        by_cases hint : σ.K.isinternstr (.list a) = true
        · refine ⟨_, _, if_pos hint, Copied.plain hσ h hd (fun hb => by cases hb.2) rfl ?_⟩
          simp [Plain, leaf, hint]
        · rw [not_eq_true] at hint
          have hleft := hσ.leftover_old s.mem a (hg.list a hword hint).1.1
          simp only [hint, hleft, false_eq_true, if_false]
          rcases h.listed hg hσ hword hint with ⟨hshared, hρ⟩ | ⟨hshared, hρ⟩
          · refine ⟨_, _, if_pos hshared, Copied.plain hσ h hd (fun hb => by cases hb.2) rfl ?_⟩
            simpa [Plain, leaf, hint] using hρ
          · simp only [hshared, false_eq_true, if_false]
            exact ih.list hg hσ h hd hword hint hρ hrest (by omega) hsafe
      | cs a =>
        by_cases hint : σ.K.isinternstr (.cs a) = true
        · refine ⟨_, _, if_pos hint, Copied.plain hσ h hd (fun hb => by cases hb.2) rfl ?_⟩
          simp [Plain, leaf, hint]
        · rw [not_eq_true] at hint
          simp only [hint, false_eq_true, if_false]
          rcases h.structured hg hword hint with ⟨d, hm, hρ⟩ | ⟨psc, hm⟩
          · rw [hm]
            refine ⟨_, _, rfl, Copied.plain hσ h hd (fun hb => by cases hb.2) rfl ?_⟩
            simpa [Plain, leaf, hint] using hρ
          · have hstruct := ih.struct hg hσ h hd hword hint hm hrest (by omega) hsafe
            rw [hm]
            exact hstruct
    | image hvar hρ =>
      have hplain : σ.Plain ρ v v' := by
        have hl : σ.leaf v = false := by
          cases v with
          | ref a | attv a => rfl
          | _ => cases hvar
        rw [Plain, if_neg (by rw [hl]; exact false_ne_true)]
        exact hρ
      have hcost : σ.cost v = 0 := by
        cases v with
        | float x => cases hvar
        | _ => rfl
      have hnb : ¬σ.Boxes v := by
        rintro ⟨-, hf⟩
        cases v with
        | float x => cases hvar
        | _ => cases hf
      have hcopied : Copied σ s ρ dest v (s.write dest v') ρ ∧
          σ.Reads (σ.scan ρ todo v) ⟨met ρ, todo⟩ := Copied.plain hσ h hd hnb hcost hplain
      cases h.pairs _ _ hρ with
      | ref _ _ _ hc _ => exact ⟨_, _, if_pos hc, hcopied⟩
      | attv _ _ hown _ => exact ⟨_, _, if_pos (hσ.copied_new _ _ hown), hcopied⟩
      | list | cs => cases hvar
    | @head x d hρ he hx hok =>
      obtain ⟨hcost, hbox⟩ := hσ.aliasOk_cost v hok
      have hown : σ.Owned s.space d := by
        cases h.pairs _ _ hρ with
        | list _ _ hown => exact hown
      obtain ⟨hleft, hplain⟩ := h.leftover hσ hρ he hx hok
      have hnb : ¬σ.Boxes v := by
        rintro ⟨hb, hf⟩
        rw [hbox hb] at hf
        cases hf
      refine ⟨_, _, ?_, Copied.plain hσ h hd hnb hcost hplain⟩
      simp only [(hσ.intern_new _ _ hown).1, hleft, false_eq_true, if_false, if_true]

/-- The first call. -/
theorem copyCell_first (hg : σ.Graph) (hσ : σ.Sound) (hmem : ∀ a ∈ σ.old, s.mem a = σ.src a)
    (htrail : s.trail = []) (hgood : σ.Good s.space) (hv : σ.Word v)
    (henter : σ.K.enter s.mem c = some v) (hcopied : v.isref = true → σ.K.copied σ.top = true)
    (hlimit : σ.used s.space + (σ.rest (fun _ => none) + σ.cost v) ≤ σ.limit)
    (hn : σ.rest (fun _ => none) < n) (hsafe : σ.Safe (σ.scan (fun _ => none) [] v)) :
    ∃ s' ρ', copyCell σ.K n c σ.top s = some s' ∧
      Copied σ s (fun _ => none) σ.top v s' ρ' := by
  have hinv : σ.Inv s (fun _ => none) none := by
    constructor
    case cells => exact fun a ha => .kept (hmem a ha) rfl rfl fun _ => ⟨rfl, rfl⟩
    case pairs => exact fun v w h => by cases h
    case heads => exact fun x d v h => by cases h
    case inj => exact fun v v' w w' h => by cases h
    case apart => exact fun v w h => by cases h
    case undo =>
      intro _ a ha
      rw [htrail]
      exact hmem a ha
    case trail =>
      intro p hp
      rw [htrail] at hp
      cases hp
    case good => exact hgood
  have hd : σ.Dest s (fun _ => none) none σ.top v :=
    ⟨.inl rfl, hcopied, (fun u w h => by cases h), fun x h => by cases h⟩
  have hword := hg.word_mem hv
  have hstands : σ.Stands s.mem (fun _ => none) none v v := by
    refine .same fun hvar => ?_
    cases v with
    | ref a =>
      exact ⟨rfl, (hmem a (hg.ref a hword).1).trans (hv.free (.inl rfl))⟩
    | attv a =>
      exact ⟨rfl, (hmem a (hg.attv a hword).1).trans (hv.free (.inr rfl))⟩
    | _ => cases hvar
  obtain ⟨s', ρ', hrun, hcopies, -⟩ :=
    works hg hσ n s _ none c σ.top v v [] hn hlimit hinv hd hv henter hstands hsafe
  exact ⟨s', ρ', hrun, hcopies⟩

end Setup

end XSBEngine.Copying
