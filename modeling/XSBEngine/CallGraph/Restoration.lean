import XSBEngine.CallGraph.Reevaluation

/-!
# Invalidations that turn out to change nothing

Some calls are invalidated one after another with `invalidate_call`, and then no change is reported
for each of them with `propagate_no_change`, `XSB/emu/call_graph_xsb.c:495–516, 664–738, 969–979`.
-/

namespace XSBEngine.CallGraph

open List

/-- Calls are invalidated one after another, with those that were valid before, and no count
overflows. -/
inductive Invalidates (v : Idg) (nodes : Finset Nat) :
    IdgFlags → List Nat → List Nat → IdgFlags → Prop where
  | nil (f : IdgFlags) : Invalidates v nodes f [] [] f
  | invalid {f f' : IdgFlags} {cn : Nat} {calls sources : List Nat} (hd : f.deleted cn = true)
      (h : Invalidates v nodes f calls sources f') : Invalidates v nodes f (cn :: calls) sources f'
  | valid {f f₁ f' : IdgFlags} {cn : Nat} {calls sources : List Nat} (fuel : Nat)
      (hd : f.deleted cn = false) (hrun : v.invalidateCall fuel f cn = some (.done f₁))
      (hfits : ∀ x, f.falsecount x + (if x = cn then 1 else 0) + (v.inedgesFrom nodes
        (fun a => a = cn || (f₁.deleted a && !f.deleted a)) x).card < falsecountRange)
      (h : Invalidates v nodes f₁ calls sources f') :
      Invalidates v nodes f (cn :: calls) (cn :: sources) f'

/-- No change is reported for some calls one after another. -/
def Idg.reportNoChange (v : Idg) (fuel : Nat) (f : IdgFlags) (calls : List Nat) : Option IdgFlags :=
  calls.foldlM (v.propagateNoChange fuel) f

/-- What several invalidations do to the marks. -/
structure SourcesInvalidated (v : Idg) (nodes : Finset Nat) (f : IdgFlags) (sources : List Nat)
    (f' : IdgFlags) : Prop where
  fresh : ∀ s ∈ sources, f.deleted s = false
  mono : ∀ x, f.deleted x = true → f'.deleted x = true
  leaf : ∀ x, v.idgDynLeaf x = true → f'.deleted x = f.deleted x
  falsecount : ∀ x, f'.falsecount x = f.falsecount x + (if x ∈ sources then 1 else 0) +
    (v.inedgesFrom nodes (fun a => sources.contains a || (f'.deleted a && !f.deleted a)) x).card
  marked : ∀ x, v.idgDynLeaf x = false → (f'.deleted x = true ↔ f.deleted x = true ∨ x ∈ sources ∨
    0 < (v.inedgesFrom nodes (fun a ↦ sources.contains a || (f'.deleted a && !f.deleted a)) x).card)

variable {v : Idg} {nodes : Finset Nat} {f f' : IdgFlags} {calls sources : List Nat} {fuel : Nat}

theorem Invalidates.sublist (h : Invalidates v nodes f calls sources f') :
    sources.Sublist calls := by
  induction h with
  | nil => exact .slnil
  | invalid _ _ ih => exact ih.cons _
  | valid _ _ _ _ _ ih => exact ih.cons_cons _

/-- The edges that count are those of the first invalidation and those of the others. -/
theorem card_inedgesFrom (v : Idg) (nodes : Finset Nat) {p q r : Nat → Bool}
    (hr : ∀ a, r a = (p a || q a))
    (hdisjoint : ∀ a, p a = true → q a = false) (x : Nat) :
    (v.inedgesFrom nodes r x).card =
      (v.inedgesFrom nodes p x).card + (v.inedgesFrom nodes q x).card := by
  simp only [Idg.inedgesFrom, Finset.card_filter]
  rw [← Finset.sum_add_distrib]
  apply Finset.sum_congr rfl
  intro a _
  have ha := hdisjoint a
  rw [hr a]
  cases hp : p a with
  | true => simp [ha hp]
  | false => simp

/-- The invalidations mark what their sources reach, and count each edge once. -/
theorem Invalidates.invalidated (h : Invalidates v nodes f calls sources f') (hv : v.On nodes)
    (hcalls : ∀ cn ∈ calls, cn ∈ nodes) (hnodup : calls.Nodup) :
    SourcesInvalidated v nodes f sources f' := by
  induction h with
  | nil f =>
    have hnone : ∀ x, v.inedgesFrom nodes (fun _ => false) x = ∅ := by
      intro x
      apply Finset.filter_eq_empty_iff.mpr
      intro a _ ha
      exact Bool.noConfusion ha.1
    constructor
    case fresh => simp
    case mono => exact fun _ hx => hx
    case leaf => exact fun _ _ => rfl
    case falsecount =>
      intro x
      simp [hnone]
    case marked =>
      intro x _
      simp [hnone]
  | invalid _ _ ih =>
    exact ih (fun cn hcn => hcalls cn (mem_cons_of_mem _ hcn)) (nodup_cons.mp hnodup).2
  | @valid f f₁ f' cn calls sources fuel hd hrun hfits hrest ih =>
    have hcn := hcalls cn mem_cons_self
    have hinv := invalidateCall_done hv hcn hd hrun
    have hs := ih (fun cn hcn ↦ hcalls cn (mem_cons_of_mem _ hcn)) (nodup_cons.mp hnodup).2
    have hcnew : cn ∉ sources := fun hc =>
      (nodup_cons.mp hnodup).1 (hrest.sublist.subset hc)
    have hmono : ∀ x, f.deleted x = true → f₁.deleted x = true := fun x hx =>
      (hinv.deleted x).mpr (Or.inl hx)
    have hleaf : ∀ x, v.idgDynLeaf x = true → f₁.deleted x = f.deleted x := by
      intro x hx
      apply Bool.eq_iff_iff.mpr
      rw [hinv.deleted x, hx]
      exact or_iff_left fun hc => Bool.noConfusion hc.2
    have hcard := card_inedgesFrom v nodes
      (p := fun a => a = cn || (f₁.deleted a && !f.deleted a))
      (q := fun a => sources.contains a || (f'.deleted a && !f₁.deleted a))
      (r := fun a => (cn :: sources).contains a || (f'.deleted a && !f.deleted a))
      (by
        intro a
        have h1 := hmono a
        have h2 := hs.mono a
        rw [contains_cons, show (a == cn) = decide (a = cn) from rfl]
        generalize decide (a = cn) = p, sources.contains a = q, f.deleted a = d,
          f₁.deleted a = d1, f'.deleted a = d' at h1 h2
        revert p q d d1 d'
        decide)
      (by
        intro a ha
        apply Bool.or_eq_false_iff.mpr
        constructor
        · apply Bool.eq_false_iff.mpr
          intro hmem
          have hmem' := contains_iff_mem.mp hmem
          rcases Bool.or_eq_true_iff.mp ha with hacn | hnew
          · exact hcnew (of_decide_eq_true hacn ▸ hmem')
          · rw [hs.fresh a hmem'] at hnew
            cases hnew
        · apply Bool.eq_false_iff.mpr
          intro hnew'
          obtain ⟨hd', hd1⟩ := Bool.and_eq_true_iff.mp hnew'
          rcases Bool.or_eq_true_iff.mp ha with hacn | hnew
          · have heq := of_decide_eq_true hacn
            by_cases hint : v.idgDynLeaf a = true
            · rw [← hs.leaf a hint, hd'] at hd1
              cases hd1
            · rw [heq, (hinv.deleted cn).mpr
                (Or.inr ⟨.refl, heq ▸ Bool.eq_false_iff.mpr hint⟩)] at hd1
              cases hd1
          · rw [(Bool.and_eq_true_iff.mp hnew).1] at hd1
            exact Bool.noConfusion hd1)
    constructor
    case fresh =>
      refine forall_mem_cons.mpr ⟨hd, fun x hx => Bool.eq_false_iff.mpr fun hdx => ?_⟩
      have hfresh := hs.fresh x hx
      rw [hmono x hdx] at hfresh
      cases hfresh
    case mono => exact fun x hx => hs.mono x (hmono x hx)
    case leaf => exact fun x hx => (hs.leaf x hx).trans (hleaf x hx)
    case falsecount =>
      intro x
      rw [hs.falsecount x, hinv.falsecount x, Nat.mod_eq_of_lt (hfits x), hcard x]
      have hmem : (if x ∈ cn :: sources then 1 else 0) =
          (if x = cn then 1 else 0) + if x ∈ sources then 1 else 0 := by
        by_cases hx : x = cn
        · simp [hx, hcnew]
        · simp [hx]
      rw [hmem]
      omega
    case marked =>
      intro x hx
      rw [hs.marked x hx, hinv.marked_iff hv hcn hx, hcard x, mem_cons,
        Nat.add_pos_iff_pos_or_pos]
      grind

/-! ### The reports -/

/-- Exactly the nodes with a count are invalid. The counts of leaves are free. -/
structure Consistent (v : Idg) (nodes : Finset Nat) (f : IdgFlags) : Prop where
  valid : ∀ x ∈ nodes, v.idgDynLeaf x = false → (f.deleted x = true ↔ 0 < f.falsecount x)
  leaf : ∀ x ∈ nodes, v.idgDynLeaf x = true → f.deleted x = false

/-- The nodes marked on the way. -/
def between (nodes : Finset Nat) (f : IdgFlags) (sources : List Nat) (f₁ : IdgFlags) : Finset Nat :=
  nodes.filter fun x => f.falsecount x = 0 ∧ x ∉ sources ∧ f₁.deleted x = true

/-- The nodes with a count that does not go. -/
def keeping (nodes : Finset Nat) (f : IdgFlags) (sources : List Nat) : Finset Nat :=
  nodes.filter fun x => x ∈ sources ∨ 0 < f.falsecount x

/-- What a node counts besides its edges from `between`, when no change is yet to be reported for
some sources. -/
def reportBase (v : Idg) (f : IdgFlags) (sources left : List Nat) (x : Nat) : Nat :=
  f.falsecount x + (if x ∈ sources then 1 else 0) + left.countP fun s => x ∈ v.hasht s

variable {f₁ f₂ : IdgFlags} {left : List Nat} {s : Nat}

theorem reportBase_cons (x : Nat) : reportBase v f sources (s :: left) x =
    reportBase v f sources left x + if x ∈ v.hasht s then 1 else 0 := by
  simp only [reportBase, countP_cons, decide_eq_true_eq]
  omega

theorem mem_between_of_deleted (hs : SourcesInvalidated v nodes f sources f₁)
    (hf : Consistent v nodes f) {a : Nat} (ha : a ∈ nodes) (hd : f₁.deleted a = true) :
    f.falsecount a = 0 ↔ f.deleted a = false := by
  have hleaf : v.idgDynLeaf a = false := by
    apply Bool.eq_false_iff.mpr
    intro hleaf
    rw [hs.leaf a hleaf, hf.leaf a ha hleaf] at hd
    cases hd
  rw [← Bool.not_eq_true, hf.valid a ha hleaf]
  omega

/-- After the invalidations no change is yet to be reported for any source. -/
theorem SourcesInvalidated.counted (hs : SourcesInvalidated v nodes f sources f₁)
    (hv : v.On nodes) (hout : ∀ a, a ∉ nodes → v.hasht a = []) (hf : Consistent v nodes f)
    (hsources : ∀ s ∈ sources, s ∈ nodes) (hnodup : sources.Nodup) :
    Counted v (between nodes f sources f₁) (keeping nodes f sources)
      (reportBase v f sources sources) f₁ := by
  have hsplit : ∀ x, f₁.falsecount x = reportBase v f sources sources x +
      (v.inedgesFrom (between nodes f sources f₁) f₁.deleted x).card := by
    intro x
    have hcard := card_inedgesFrom v nodes (p := fun a => sources.contains a)
      (q := fun a => !sources.contains a && (f₁.deleted a && !f.deleted a))
      (r := fun a => sources.contains a || (f₁.deleted a && !f.deleted a))
      (fun a => by cases sources.contains a <;> rfl)
      (fun a ha => by
        simp only [ha]
        rfl) x
    have hcount : (v.inedgesFrom nodes (fun a => sources.contains a) x).card =
        sources.countP fun s => x ∈ v.hasht s := by
      rw [countP_eq_length_filter, ← toFinset_card_of_nodup (hnodup.filter _)]
      congr 1
      ext a
      simp only [Idg.inedgesFrom, Finset.mem_filter, contains_iff_mem, mem_toFinset,
        mem_filter, decide_eq_true_eq]
      exact ⟨fun ha => ha.2, fun ha => ⟨hsources a ha.1, ha⟩⟩
    have hbetween : v.inedgesFrom nodes
        (fun a => !sources.contains a && (f₁.deleted a && !f.deleted a)) x =
          v.inedgesFrom (between nodes f sources f₁) f₁.deleted x := by
      ext a
      simp only [Idg.inedgesFrom, between, Finset.mem_filter, Bool.and_eq_true, Bool.not_eq_true']
      constructor
      · rintro ⟨ha, ⟨hsrc, hd, hfd⟩, hx⟩
        have hsrc' : a ∉ sources := by
          intro hmem
          rw [contains_iff_mem.mpr hmem] at hsrc
          cases hsrc
        exact ⟨⟨ha, (mem_between_of_deleted hs hf ha hd).mpr hfd, hsrc', hd⟩, hd, hx⟩
      · rintro ⟨⟨ha, hzero, hsrc, hd⟩, -, hx⟩
        refine ⟨ha, ⟨?_, hd, (mem_between_of_deleted hs hf ha hd).mp hzero⟩, hx⟩
        exact Bool.eq_false_iff.mpr fun hc => hsrc (contains_iff_mem.mp hc)
    rw [hs.falsecount x, hcard, hcount, hbetween, reportBase]
    omega
  constructor
  case count => exact fun x _ => hsplit x
  case valid =>
    intro x hx hleaf
    obtain ⟨hxn, hzero, hsrc, hd⟩ := Finset.mem_filter.mp hx
    have hfresh := (mem_between_of_deleted hs hf hxn hd).mp hzero
    rcases (hs.marked x hleaf).mp hd with hd' | hmem | hpos
    · rw [hfresh] at hd'
      cases hd'
    · exact absurd hmem hsrc
    · rw [hs.falsecount x]
      exact iff_of_true hd (Nat.add_pos_right _ hpos)
  case leaf =>
    intro x hx hleaf
    rw [hs.leaf x hleaf]
    exact hf.leaf x (Finset.mem_of_mem_filter x hx) hleaf
  case keeps =>
    intro x hx
    have hkeep := (Finset.mem_filter.mp hx).2
    constructor
    · intro hb
      obtain ⟨-, hzero, hsrc, -⟩ := Finset.mem_filter.mp hb
      rcases hkeep with hmem | hpos
      · exact hsrc hmem
      · omega
    · rw [reportBase]
      rcases hkeep with hmem | hpos
      · rw [if_pos hmem]
        omega
      · omega
  case outside =>
    intro a x hax hbetween hkeeping
    have ha : a ∈ nodes := by
      by_contra ha
      rw [hout a ha] at hax
      exact not_mem_nil hax
    have hx := hv.closed a ha x hax
    have hleaf := hv.interior a ha x hax
    have hsrc : x ∉ sources := fun hc => hkeeping (Finset.mem_filter.mpr ⟨hx, Or.inl hc⟩)
    have hzero : f.falsecount x = 0 := by
      by_contra hne
      exact hkeeping (Finset.mem_filter.mpr ⟨hx, Or.inr (Nat.pos_of_ne_zero hne)⟩)
    have hcard : ¬ 0 < (v.inedgesFrom nodes
        (fun a => sources.contains a || (f₁.deleted a && !f.deleted a)) x).card := fun hpos =>
      hbetween (Finset.mem_filter.mpr
        ⟨hx, hzero, hsrc, (hs.marked x hleaf).mpr (Or.inr (Or.inr hpos))⟩)
    rw [hs.falsecount x, hzero, if_neg hsrc]
    omega

/-- The reports take the edges of the sources out of the counts. -/
theorem counted_reportNoChange (hv : v.On nodes)
    (hleft : ∀ s ∈ left, s ∈ nodes) (hkept : ∀ b, b ∈ keeping nodes f sources →
      0 < f.falsecount b + if b ∈ sources then 1 else 0)
    (h : Counted v (between nodes f sources f₁) (keeping nodes f sources)
      (reportBase v f sources left) f') (hrun : v.reportNoChange fuel f' left = some f₂) :
    Counted v (between nodes f sources f₁) (keeping nodes f sources)
      (reportBase v f sources []) f₂ ∧ Retracts (between nodes f sources f₁) f' f₂ := by
  induction left generalizing f' with
  | nil =>
    cases hrun
    exact ⟨h, .refl _⟩
  | cons s left ih =>
    rw [Idg.reportNoChange, foldlM_cons] at hrun
    obtain ⟨f3, hstep, hrest⟩ := Option.bind_eq_some_iff.mp hrun
    have hs := hleft s mem_cons_self
    have hsub : ∀ a ∈ between nodes f sources f₁, a ∈ nodes := fun a ha =>
      Finset.mem_of_mem_filter a ha
    have hreports : Counted.Reports v (keeping nodes f sources)
        (reportBase v f sources (s :: left)) f' (v.hasht s) := by
      refine ⟨hv.nodup s hs, fun x hx => ⟨s, hx⟩, hv.interior s hs, fun x hx => Or.inl ?_⟩
      rw [reportBase_cons, if_pos hx]
      refine ⟨Nat.succ_pos _, fun hk => ?_⟩
      have hpos := hkept x hk
      rw [reportBase]
      omega
    obtain ⟨h3, hretracts⟩ := h.propagate (fun a ha => hv.nodup a (hsub a ha))
      (fun a ha => hv.interior a (hsub a ha)) hreports hstep
    have h3' : Counted v (between nodes f sources f₁) (keeping nodes f sources)
        (reportBase v f sources left) f3 := by
      apply h3.congr
      intro x _
      rw [reportBase_cons, Nat.add_sub_cancel]
    obtain ⟨h2, hretracts'⟩ := ih (fun x hx => hleft x (mem_cons_of_mem s hx)) h3' hrest
    exact ⟨h2, hretracts.trans hretracts'⟩

/-- The reports end. -/
theorem reportNoChange_terminates (hv : v.On nodes) (hleft : ∀ s ∈ left, s ∈ nodes)
    (hfuel : f'.total nodes < fuel) : (v.reportNoChange fuel f' left).isSome := by
  induction left generalizing f' with
  | nil => rfl
  | cons s left ih =>
    obtain ⟨f₁, hrun, hle⟩ := Idg.propagateNoChange_terminates hv.closed
      (hv.closed s (hleft s mem_cons_self)) hfuel
    rw [Idg.reportNoChange, foldlM_cons, hrun]
    exact ih (fun x hx => hleft x (mem_cons_of_mem s hx)) (hle.trans_lt hfuel)

/-- On an acyclic graph what was marked on the way is valid again. -/
theorem between_valid {rank : Nat → Nat} (hrank : ∀ a ∈ nodes, ∀ b ∈ v.hasht a, rank a < rank b)
    (h : Counted v (between nodes f sources f₁) (keeping nodes f sources)
      (reportBase v f sources []) f₂) {x : Nat} (hx : x ∈ between nodes f sources f₁) :
    f₂.deleted x = false := by
  induction hr : rank x using Nat.strong_induction_on generalizing x with
  | _ r ih =>
    obtain ⟨hxn, hzero, hsrc, hd⟩ := Finset.mem_filter.mp hx
    by_cases hleaf : v.idgDynLeaf x = true
    · exact h.leaf x hx hleaf
    · have hnone : v.inedgesFrom (between nodes f sources f₁) f₂.deleted x = ∅ := by
        apply Finset.filter_eq_empty_iff.mpr
        rintro a ha ⟨hda, hax⟩
        have hlt := hrank a (Finset.mem_of_mem_filter a ha) x hax
        rw [ih (rank a) (hr ▸ hlt) ha rfl] at hda
        cases hda
      apply Bool.eq_false_iff.mpr
      intro hd2
      have hpos := (h.valid x hx (Bool.eq_false_iff.mpr hleaf)).mp hd2
      rw [h.count x (Or.inl hx), hnone, reportBase, hzero, if_neg hsrc] at hpos
      exact absurd hpos (Nat.lt_irrefl 0)

/-- On an acyclic graph the counts and marks of all nodes but the sources are restored, and the
sources count one more. -/
theorem Invalidates.restored {reports : List Nat} {rank : Nat → Nat}
    (h : Invalidates v nodes f calls sources f₁) (hv : v.On nodes)
    (hout : ∀ a, a ∉ nodes → v.hasht a = [])
    (hrank : ∀ a ∈ nodes, ∀ b ∈ v.hasht a, rank a < rank b) (hf : Consistent v nodes f)
    (hcalls : ∀ cn ∈ calls, cn ∈ nodes) (hnodup : calls.Nodup) (hperm : reports.Perm sources)
    (hrun : v.reportNoChange fuel f₁ reports = some f₂) {x : Nat} (hx : x ∈ nodes) :
    f₂.falsecount x = f.falsecount x + (if x ∈ sources then 1 else 0) ∧
      (x ∉ sources → f₂.deleted x = f.deleted x) := by
  have hs := h.invalidated hv hcalls hnodup
  have hsources : ∀ s ∈ sources, s ∈ nodes := fun s hs => hcalls s (h.sublist.subset hs)
  have hcounted := hs.counted hv hout hf hsources (hnodup.sublist h.sublist)
  have hleft : Counted v (between nodes f sources f₁) (keeping nodes f sources)
      (reportBase v f sources reports) f₁ := by
    apply hcounted.congr
    intro x _
    rw [reportBase, reportBase, hperm.countP_eq]
  obtain ⟨h2, hretracts⟩ := counted_reportNoChange hv
    (fun s hs => hsources s (hperm.subset hs))
    (fun b hb => by
      rcases (Finset.mem_filter.mp hb).2 with hmem | hpos
      · rw [if_pos hmem]
        omega
      · omega) hleft hrun
  have hnone : ∀ x, v.inedgesFrom (between nodes f sources f₁) f₂.deleted x = ∅ := by
    intro x
    apply Finset.filter_eq_empty_iff.mpr
    rintro a ha ⟨hda, -⟩
    rw [between_valid hrank h2 ha] at hda
    cases hda
  by_cases hb : x ∈ between nodes f sources f₁
  · obtain ⟨-, hzero, hsrc, hd⟩ := Finset.mem_filter.mp hb
    constructor
    · rw [h2.count x (Or.inl hb), hnone]
      rfl
    · intro _
      rw [between_valid hrank h2 hb, (mem_between_of_deleted hs hf hx hd).mp hzero]
  · have hdeleted : x ∉ sources → f₁.deleted x = f.deleted x := by
      intro hsrc
      cases hd : f₁.deleted x with
      | false =>
        symm
        apply Bool.eq_false_iff.mpr
        intro hfd
        rw [hs.mono x hfd] at hd
        cases hd
      | true =>
        have hzero : f.falsecount x ≠ 0 := fun hz =>
          hb (Finset.mem_filter.mpr ⟨hx, hz, hsrc, hd⟩)
        rw [Ne, mem_between_of_deleted hs hf hx hd, Bool.not_eq_false] at hzero
        exact hzero.symm
    refine ⟨?_, fun hsrc => (hretracts.outside x hb).trans (hdeleted hsrc)⟩
    by_cases hk : x ∈ keeping nodes f sources
    · rw [h2.count x (Or.inr hk), hnone]
      rfl
    · have hsrc : x ∉ sources := fun hc => hk (Finset.mem_filter.mpr ⟨hx, Or.inl hc⟩)
      have hzero : f.falsecount x = 0 := by
        by_contra hne
        exact hk (Finset.mem_filter.mpr ⟨hx, Or.inr (Nat.pos_of_ne_zero hne)⟩)
      rw [hzero, if_neg hsrc]
      by_cases htarget : ∃ a, x ∈ v.hasht a
      · obtain ⟨a, hax⟩ := htarget
        exact h2.outside a x hax hb hk
      · apply Nat.le_zero.mp
        apply (hretracts.falsecount x).trans
        rw [hs.falsecount x, hzero, if_neg hsrc, Nat.zero_add]
        apply Nat.le_zero.mpr
        apply Finset.card_eq_zero.mpr
        apply Finset.filter_eq_empty_iff.mpr
        exact fun a _ ha => htarget ⟨a, ha.2⟩

/-! ### Propagation in runs -/

/-- A node that a report makes valid was not invalidated itself, and each source of its edges is
valid and has been found unchanged. -/
theorem restored_of_completeCall {s s' : IdgState} {cn x : Nat} (hs : idgSystem.Reachable s)
    (hstep : IdgState.Step s (.completeCall cn true) s') (hx : x ∈ s.current)
    (hd : s.flags.deleted x = true) (hd' : s'.flags.deleted x = false) :
    s.own x = 0 ∧ ∀ a ∈ s.current, x ∈ s.graph.table a →
      s'.flags.deleted a = false ∧ s'.stale a x = 0 := by
  have hok := idgSystem_invariant.holds hs
  have hok' := idgSystem_invariant.step s _ s' hok hstep
  cases hstep with
  | @completeCall _ old _ f g isCompleted fuel hcn hprev hrun hdealloc =>
    obtain ⟨-, hretired, -⟩ := hok.prev cn hcn old hprev
    obtain ⟨houts, hmem⟩ := IncrDepGraph.removeInedges_frame hdealloc
    have hleaf : s.idgDynLeaf x = false := by
      apply Bool.eq_false_iff.mpr
      intro hleaf
      rw [hok.leaf x hx hleaf] at hd
      cases hd
    have hzero : (s.completeCall cn old true f g).flags.falsecount x = 0 := by
      by_contra hne
      rw [(hok'.valid x hx hleaf).mpr (Nat.pos_of_ne_zero hne)] at hd'
      cases hd'
    rw [hok'.falsecount_eq hx] at hzero
    have hown : s.own x = 0 := by
      have hle : s.own x = (s.completeCall cn old true f g).own x := rfl
      omega
    refine ⟨hown, fun a ha hax => ⟨?_, ?_⟩⟩
    · apply Bool.eq_false_iff.mpr
      intro hda
      have hax' : x ∈ (s.completeCall cn old true f g).graph.table a := by
        show x ∈ g.table a
        rw [IncrDepGraph.table, houts, hmem _ _ (ne_of_mem_of_not_mem hx hretired)]
        exact hax
      have hsource : a ∈ (s.completeCall cn old true f g).current.filter fun a =>
          (s.completeCall cn old true f g).flags.deleted a = true ∧
            x ∈ (s.completeCall cn old true f g).graph.table a :=
        Finset.mem_filter.mpr ⟨ha, hda, hax'⟩
      have hcard := Finset.card_pos.mpr ⟨a, hsource⟩
      omega
    · have hsum : ∑ a ∈ (s.completeCall cn old true f g).current,
          (s.completeCall cn old true f g).stale a x = 0 := by omega
      exact Finset.sum_eq_zero_iff.mp hsum a ha

end XSBEngine.CallGraph
