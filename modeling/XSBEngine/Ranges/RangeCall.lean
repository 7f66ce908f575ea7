import XSBEngine.Ranges.RangeFacts
import XSBEngine.Ranges.RangeRuns

/-!
# Calls with ranges

A call with a range finds the keys in one of the range trees, and calls the goal for each. It
returns the facts that match the goal and are in the ranges, as far as that tree has them.
-/

namespace XSBEngine.Ranges

open Function List Option Set XSBEngine.Library

variable {κ : Type*} [LinearOrder κ] {ri : RangeIndex κ} {arity n i : Nat} {θ : Nat → κ}
  {σ τ : Bindings κ} {goal ps : List (Pattern κ)} {indexArgs : List (IndexArg κ)} {p : Pattern κ}
  {is : List Nat} {f vs : List κ} {v : κ} {db db' : Database κ}

/-! ### Positions -/

section Positions

variable {α : Type*} {l ws : List α} {w : α}

theorem arg_exists (h : 1 ≤ i ∧ i ≤ l.length) : ∃ w, arg i l = some w := by
  obtain ⟨i, rfl⟩ := Nat.exists_eq_add_of_le' h.1
  exact ⟨l[i], List.getElem?_eq_getElem _⟩

theorem posToVal_eq_some : posToVal is l = some ws ↔
    List.Forall₂ (fun i w => arg i l = some w) is ws := by
  induction is generalizing ws with
  | nil =>
    rw [posToVal, forall₂_nil_left_iff]
    exact ⟨fun h => (some.inj h).symm, fun h => h ▸ rfl⟩
  | cons i is ih =>
    rw [posToVal]
    constructor
    · intro h
      split at h
      next w ws' hw hws =>
        cases h
        exact .cons hw (ih.mp hws)
      next => cases h
    · intro h
      cases h with
      | cons hw hws => rw [hw, ih.mpr hws]

theorem posToVal_exists (h : ∀ i ∈ is, 1 ≤ i ∧ i ≤ l.length) : ∃ ws, posToVal is l = some ws := by
  induction is with
  | nil => exact ⟨[], rfl⟩
  | cons i is ih =>
    obtain ⟨w, hw⟩ := arg_exists (h i mem_cons_self)
    obtain ⟨ws, hws⟩ := ih fun j hj => h j (mem_cons_of_mem _ hj)
    exact ⟨w :: ws, by rw [posToVal, hw, hws]⟩

end Positions

omit [LinearOrder κ] in

omit [LinearOrder κ] in
theorem inst_get (h : InstAll θ goal f) {j : Nat} (hp : goal[j]? = some p)
    (hv : f[j]? = some v) : p.Inst θ v := by
  induction goal generalizing f j with
  | nil => cases hp
  | cons q goal ih =>
    cases f with
    | nil => cases hv
    | cons w f =>
      rw [InstAll] at h
      cases j with
      | zero =>
        cases hp
        cases hv
        exact h.1
      | succ j => exact ih h.2 hp hv

omit [LinearOrder κ] in
theorem inst_arg (h : InstAll θ goal f) (hp : arg i goal = some p) (hv : arg i f = some v) :
    p.Inst θ v := by
  cases i with
  | zero => cases hp
  | succ j => exact inst_get h hp hv

omit [LinearOrder κ] in
theorem inst_posToVal (h : InstAll θ goal f) (hp : posToVal is goal = some ps)
    (hv : posToVal is f = some vs) : InstAll θ ps vs := by
  induction is generalizing ps vs with
  | nil =>
    cases hp
    cases hv
    rw [InstAll]
    trivial
  | cons i is ih =>
    cases posToVal_eq_some.mp hp with
    | cons hq hqs =>
      cases posToVal_eq_some.mp hv with
      | cons hw hws =>
        rw [InstAll]
        exact ⟨inst_arg h hq hw, ih (posToVal_eq_some.mpr hqs) (posToVal_eq_some.mpr hws)⟩

/-! ### Ranges -/

/-- The value is in the range. -/
def IndexArg.Has : IndexArg κ → κ → Prop
  | free, _ => True
  | range lo hi, v => lo ≤ v ∧ v ≤ hi
  | value w, v => w = v

/-- The range is not an error. -/
def IndexArg.Legal : IndexArg κ → Prop
  | range lo hi => lo ≤ hi
  | _ => True

/-- `Lo` and `Hi` of a range. -/
def IndexArg.bounds (ri : RangeIndex κ) : IndexArg κ → κ × κ
  | free => (ri.minValue, ri.maxValue)
  | range lo hi => (lo, hi)
  | value v => (v, v)

/-- The constants among the ranges are instances of the arguments. -/
def Values (θ : Nat → κ) : List (IndexArg κ) → List (Pattern κ) → Prop
  | .value v :: args, p :: ps => p.Inst θ v ∧ Values θ args ps
  | _ :: args, _ :: ps => Values θ args ps
  | _, _ => True

/-- The fact is an instance of the goal, and its indexed arguments are in the ranges. -/
def Satisfies (ri : RangeIndex κ) (goal : List (Pattern κ)) (indexArgs : List (IndexArg κ))
    (f : List κ) : Prop :=
  (∃ θ, InstAll θ goal f) ∧
    ∃ vs, posToVal ri.indexPos f = some vs ∧ List.Forall₂ IndexArg.Has indexArgs vs

/-- The bindings that `extract_var_ranges` makes. -/
theorem extractVarRanges_spec (ri : RangeIndex κ) (σ : Bindings κ)
    (hlen : indexArgs.length = ps.length)
    (hlegal : ∀ a ∈ indexArgs, a.Legal) :
    (ri.extractVarRanges indexArgs ps σ = .ok none ∧
      ∀ θ, Extends σ θ → ¬Values θ indexArgs ps) ∨
    ∃ τ, ri.extractVarRanges indexArgs ps σ =
      .ok (some (τ, indexArgs.map (IndexArg.bounds ri))) ∧
        ∀ θ, Extends τ θ ↔ Extends σ θ ∧ Values θ indexArgs ps := by
  induction indexArgs generalizing ps σ with
  | nil =>
    cases ps with
    | nil => exact .inr ⟨σ, rfl, fun θ => by simp [Values]⟩
    | cons => cases hlen
  | cons a args ih =>
    cases ps with
    | nil => cases hlen
    | cons p ps =>
      have hrest := fun σ => @ih ps σ (Nat.succ.inj hlen)
        fun b hb => hlegal b (mem_cons_of_mem _ hb)
      have ha := hlegal a mem_cons_self
      cases a with
      | free =>
        rcases hrest σ with ⟨hrun, hnone⟩ | ⟨τ, hrun, hsome⟩
        · refine .inl ⟨by rw [RangeIndex.extractVarRanges, hrun], fun θ hθ => ?_⟩
          rw [Values]
          · exact hnone θ hθ
          · nofun
        · refine .inr ⟨τ, by rw [RangeIndex.extractVarRanges, hrun]; rfl, fun θ => ?_⟩
          rw [Values]
          · exact hsome θ
          · nofun
      | range lo hi =>
        have hle : lo ≤ hi := ha
        rcases hrest σ with ⟨hrun, hnone⟩ | ⟨τ, hrun, hsome⟩
        · refine .inl ⟨by rw [RangeIndex.extractVarRanges, if_pos hle, hrun], fun θ hθ => ?_⟩
          rw [Values]
          · exact hnone θ hθ
          · nofun
        · refine .inr ⟨τ, by rw [RangeIndex.extractVarRanges, if_pos hle, hrun]; rfl, fun θ => ?_⟩
          rw [Values]
          · exact hsome θ
          · nofun
      | value v =>
        rw [RangeIndex.extractVarRanges]
        cases hv : p.unify v σ with
        | none =>
          refine .inl ⟨rfl, fun θ hθ hvals => ?_⟩
          have hspec := p.unify_spec v σ
          rw [hv] at hspec
          rw [Values] at hvals
          exact hspec θ hθ hvals.1
        | some υ =>
          rcases hrest υ with ⟨hrun, hnone⟩ | ⟨τ, hrun, hsome⟩
          · refine .inl ⟨by simp only [hrun], fun θ hθ hvals => ?_⟩
            rw [Values] at hvals
            exact hnone θ ((unify_some hv).mpr ⟨hθ, hvals.1⟩) hvals.2
          · refine .inr ⟨τ, by simp only [hrun]; rfl, fun θ => ?_⟩
            rw [hsome θ, unify_some hv, Values, and_assoc]

/-- Arguments in their ranges agree with the constants. -/
theorem values_of_inst (h : InstAll θ ps vs) (hvs : List.Forall₂ IndexArg.Has indexArgs vs) :
    Values θ indexArgs ps := by
  induction hvs generalizing ps with
  | nil =>
    cases ps with
    | nil => simp [Values]
    | cons => rw [InstAll] at h; exact h.elim
  | @cons a v args vs ha _ ih =>
    cases ps with
    | nil => rw [InstAll] at h; exact h.elim
    | cons p ps =>
      rw [InstAll] at h
      cases a with
      | value w =>
        rw [Values]
        have hw : w = v := ha
        exact ⟨hw ▸ h.1, ih h.2⟩
      | free | range lo hi =>
        rw [Values]
        · exact ih h.2
        · nofun

/-- `check_ranges` tests whether the arguments are in their ranges. -/
theorem checkRanges_iff (hin : ∀ v ∈ vs, v ∈ Ioo ri.minValue ri.maxValue) :
    RangeIndex.checkRanges vs (indexArgs.map (IndexArg.bounds ri)) = true ↔
      List.Forall₂ IndexArg.Has indexArgs vs := by
  induction vs generalizing indexArgs with
  | nil =>
    cases indexArgs with
    | nil | cons a args => simp [RangeIndex.checkRanges]
  | cons v vs ih =>
    cases indexArgs with
    | nil => simp [RangeIndex.checkRanges]
    | cons a args =>
      have hv := hin v mem_cons_self
      have hone : (a.bounds ri).1 ≤ v ∧ v ≤ (a.bounds ri).2 ↔ a.Has v := by
        cases a with
        | free => exact iff_of_true ⟨hv.1.le, hv.2.le⟩ trivial
        | range lo hi => exact Iff.rfl
        | value w => exact ⟨fun h => le_antisymm h.1 h.2, fun h => ⟨h.le, h.ge⟩⟩
      rw [map_cons, RangeIndex.checkRanges, forall₂_cons, ← hone,
        ← ih fun w hw => hin w (mem_cons_of_mem _ hw)]
      simp only [Bool.and_eq_true, decide_eq_true_eq]

/-! ### The index that is used -/

/-- The first argument with a range decides which tree is searched. -/
theorem getKeyForRangeValue_spec (ri : RangeIndex κ)
    (hlen : indexArgs.length = is.length)
    (hps : posToVal is goal = some ps) (key : List (Pattern κ)) (σ : Bindings κ) :
    ((∀ a ∈ indexArgs, a = .free) ∧ ∀ n db, ri.getKeyForRangeValue n key σ indexArgs is ps
      (indexArgs.map (IndexArg.bounds ri)) db = .ok (db, [σ])) ∨
    ∃ a i p, (a, i) ∈ indexArgs.zip is ∧ a ≠ .free ∧ arg i goal = some p ∧
      (∀ f vs v, posToVal is f = some vs → List.Forall₂ IndexArg.Has indexArgs vs →
        arg i f = some v → a.Has v) ∧
      ∀ n db l, getFromRangeTree ri.enum n (a.bounds ri).1 (a.bounds ri).2
          (RangeIndex.keyArg p σ) ((ri.initRangeTreeIfNec i db).trees.tree i) = some l →
        ri.getKeyForRangeValue n key σ indexArgs is ps (indexArgs.map (IndexArg.bounds ri)) db =
          .ok (ri.initRangeTreeIfNec i db,
            l.filterMap fun (v, k) => (p.unify v σ).bind (unifyAll key k)) := by
  induction indexArgs generalizing is ps with
  | nil => exact .inl ⟨nofun, fun _ _ => rfl⟩
  | cons a args ih =>
    cases is with
    | nil => cases hlen
    | cons i is =>
      cases posToVal_eq_some.mp hps with
      | @cons _ p _ ps hp hrest =>
        by_cases ha : a = .free
        · cases ha
          rcases ih (Nat.succ.inj hlen) (posToVal_eq_some.mpr hrest) with ⟨hfree, hrun⟩ |
            ⟨a, j, q, hmem, hne, hq, hhas, hrun⟩
          · refine .inl ⟨fun b hb => ?_, hrun⟩
            rcases mem_cons.mp hb with rfl | hb
            · rfl
            · exact hfree b hb
          · refine .inr ⟨a, j, q, mem_cons_of_mem _ hmem, hne, hq, fun f vs v hvs hall hv ↦ ?_,
              hrun⟩
            cases posToVal_eq_some.mp hvs with
            | cons _ hws =>
              cases hall with
              | cons _ hall' => exact hhas f _ v (posToVal_eq_some.mpr hws) hall' hv
        · refine .inr ⟨a, i, p, mem_cons_self, ha, hp, fun f vs v hvs hall hv => ?_,
            fun n db l hl => ?_⟩
          · cases posToVal_eq_some.mp hvs with
            | cons hw _ =>
              cases hall with
              | cons hw' _ =>
                rw [hv] at hw
                cases hw
                exact hw'
          · cases a with
            | free => exact absurd rfl ha
            | range lo hi | value w =>
              rw [map_cons, IndexArg.bounds, RangeIndex.getKeyForRangeValue]
              · rw [IndexArg.bounds] at hl
                simp only [hl]
              · nofun

/-! ### Databases -/

/-- The positions are those of arguments, and the least value is below the greatest one. -/
structure RangeIndex.Proper (ri : RangeIndex κ) (arity : Nat) : Prop where
  lt : ri.minValue < ri.maxValue
  key : ∀ i ∈ ri.keyPos, 1 ≤ i ∧ i ≤ arity
  key_ne : ri.keyPos ≠ []
  index : ∀ i ∈ ri.indexPos, 1 ≤ i ∧ i ≤ arity

/-- A fact of the predicate: its indexed arguments are between the least and the greatest value. -/
structure Proper (ri : RangeIndex κ) (arity : Nat) (f : List κ) : Prop where
  length : f.length = arity
  inside : ∀ i ∈ ri.indexPos, ∀ v, arg i f = some v → v ∈ Ioo ri.minValue ri.maxValue

/-- What the range tree of a position has for a fact. -/
def entry (ri : RangeIndex κ) (i : Nat) (f : List κ) : Option (κ × List κ) :=
  match arg i f, posToVal ri.keyPos f with
  | some v, some key => some (v, key)
  | _, _ => none

/-- The range trees hold the pairs `c`. -/
structure Represents (ri : RangeIndex κ) (arity : Nat) (db : Database κ)
    (c : Nat → Option (Set (κ × List κ))) : Prop where
  trees : ∀ i, Holds ri.minValue ri.maxValue (db.trees.tree i) (c i)
  tabled : ∀ i, db.tabled i = false → c i = none
  facts : ∀ f ∈ db.facts, Proper ri arity f

variable {c : Nat → Option (Set (κ × List κ))}

theorem Proper.index_exists (hri : ri.Proper arity) (h : Proper ri arity f) :
    ∃ vs, posToVal ri.indexPos f = some vs ∧ ∀ v ∈ vs, v ∈ Ioo ri.minValue ri.maxValue := by
  obtain ⟨vs, hvs⟩ := posToVal_exists (l := f) fun i hi => h.length ▸ hri.index i hi
  refine ⟨vs, hvs, ?_⟩
  have hall := posToVal_eq_some.mp hvs
  have hin := h.inside
  clear hvs
  generalize ri.indexPos = is at hall hin
  intro v hv
  induction hall with
  | nil => cases hv
  | @cons i w is ws hw _ ih =>
    rcases mem_cons.mp hv with rfl | hv
    · exact hin i mem_cons_self v hw
    · exact ih (fun j hj => hin j (mem_cons_of_mem _ hj)) hv

omit [LinearOrder κ] in
theorem entry_exists (hri : ∀ j ∈ ri.keyPos, 1 ≤ j ∧ j ≤ arity) (hi : 1 ≤ i ∧ i ≤ arity)
    (hf : f.length = arity) :
    ∃ v key, arg i f = some v ∧ posToVal ri.keyPos f = some key ∧ entry ri i f = some (v, key) := by
  obtain ⟨v, hv⟩ := arg_exists (l := f) (hf ▸ hi)
  obtain ⟨key, hkey⟩ := posToVal_exists (l := f) fun j hj => hf ▸ hri j hj
  exact ⟨v, key, hv, hkey, by rw [entry, hv, hkey]⟩

/-- A tree is made where it is necessary, and then nothing is added. -/
theorem Represents.init (hri : ri.Proper arity) (h : Represents ri arity db c) (i : Nat) :
    ∃ c', Represents ri arity (ri.initRangeTreeIfNec i db) c' ∧
      (ri.initRangeTreeIfNec i db).facts = db.facts ∧
      (∀ j, (c' j).getD ∅ = (c j).getD ∅) ∧ (ri.initRangeTreeIfNec i db).tabled i = true ∧
      ∀ j, ((ri.initRangeTreeIfNec i db).tabled j = true ∧ c' j = none) ↔
        (db.tabled j = true ∧ c j = none) := by
  rw [RangeIndex.initRangeTreeIfNec]
  split
  next hi => exact ⟨c, h, rfl, fun _ => rfl, hi, fun _ => Iff.rfl⟩
  next hi =>
    have hci : c i = none := h.tabled i (Bool.not_eq_true _ ▸ hi)
    refine ⟨update c i (some ∅), ⟨fun j => ?_, fun j hj => ?_, h.facts⟩, rfl, fun j => ?_,
      update_self .., fun j => ?_⟩
    · by_cases hji : j = i
      · rw [hji, update_self]
        refine Holds.mono (t := initRangeTree ri.minValue ri.maxValue (db.trees.tree i))
          ⟨valid_init hri.lt _, ?_⟩ (update_self ..) (update_self ..) (le_refl _)
        ext p
        simp [pairs, initRangeTree]
      · rw [update_of_ne hji]
        exact (h.trees j).mono (update_of_ne hji ..) (update_of_ne hji ..)
          (le_refl _)
    · by_cases hji : j = i
      · have hj' : update db.tabled i true j = false := hj
        rw [hji, update_self] at hj'
        cases hj'
      · have hj' : update db.tabled i true j = false := hj
        rw [update_of_ne hji] at hj' ⊢
        exact h.tabled j hj'
    · by_cases hji : j = i
      · rw [hji, update_self, hci]
        rfl
      · rw [update_of_ne hji]
    · show update db.tabled i true j = true ∧ _ ↔ _
      by_cases hji : j = i
      · rw [hji, update_self, update_self]
        simp [hi]
      · rw [update_of_ne hji, update_of_ne hji]

/-! ### Solutions -/

/-- The facts that are called with some bindings. -/
theorem called_iff {C : (Nat → κ) → Prop} (hri : ri.Proper arity) (hf : Proper ri arity f)
    (hps : posToVal ri.indexPos goal = some ps)
    (hσ : ∀ θ, Extends σ θ ↔ Values θ indexArgs ps ∧ C θ) :
    ((unifyAll goal f σ).isSome && (posToVal ri.indexPos f).any fun vs =>
        RangeIndex.checkRanges vs (indexArgs.map (IndexArg.bounds ri))) = true ↔
      (∃ θ, C θ ∧ InstAll θ goal f) ∧
        ∃ vs, posToVal ri.indexPos f = some vs ∧ List.Forall₂ IndexArg.Has indexArgs vs := by
  obtain ⟨vs, hvs, hin⟩ := hf.index_exists hri
  have hranges : (∃ vs, posToVal ri.indexPos f = some vs ∧
      List.Forall₂ IndexArg.Has indexArgs vs) ↔ List.Forall₂ IndexArg.Has indexArgs vs := by
    rw [hvs]
    constructor
    · rintro ⟨ws, hws, hall⟩
      cases hws
      exact hall
    · exact fun hall => ⟨vs, rfl, hall⟩
  rw [Bool.and_eq_true, unifyAll_isSome_iff ri.minValue, hranges, hvs, any_some,
    checkRanges_iff hin]
  refine and_congr_left fun hall => ?_
  constructor
  · rintro ⟨θ, hθ, hinst⟩
    exact ⟨θ, ((hσ θ).mp hθ).2, hinst⟩
  · rintro ⟨θ, hC, hinst⟩
    have hvalues := values_of_inst (inst_posToVal hinst hps hvs) hall
    exact ⟨θ, (hσ θ).mpr ⟨hvalues, hC⟩, hinst⟩

section Lists

variable {α β γ : Type*}

theorem filterMap_flatMap {g : α → Option β} {k : β → List γ} (l : List α) :
    (l.filterMap g).flatMap k = l.flatMap fun x => (g x).elim [] k := by
  induction l with
  | nil => rfl
  | cons x l ih =>
    cases hx : g x with
    | none => rw [filterMap_cons_none hx, ih, flatMap_cons, hx]; rfl
    | some y => rw [filterMap_cons_some hx, flatMap_cons, ih, flatMap_cons, hx]; rfl

/-- The members that belong to some of different labels, label by label. -/
theorem flatMap_filter_perm [DecidableEq β] {label : α → Option β} {S : α → Bool} {l : List β}
    (hl : l.Nodup) (xs : List α) :
    (l.flatMap fun b => xs.filter fun a => S a && label a = some b).Perm
      (xs.filter fun a => S a && (label a).any fun b => b ∈ l) := by
  induction l with
  | nil => simp
  | cons b l ih =>
    obtain ⟨hb, hl⟩ := nodup_cons.mp hl
    rw [flatMap_cons]
    refine ((ih hl).append_left _).trans ?_
    have hsplit := filter_append_perm (fun a => decide (label a = some b))
      (xs.filter fun a => S a && (label a).any fun b' => b' ∈ b :: l)
    rw [List.filter_filter, List.filter_filter] at hsplit
    refine List.Perm.trans (.of_eq (congrArg₂ (· ++ ·) ?_ ?_)) hsplit
    · refine filter_congr fun a _ => ?_
      rw [Bool.eq_iff_iff]
      cases hla : label a with
      | none => simp
      | some b' =>
        simp only [Option.some.injEq, Bool.and_eq_true, decide_eq_true_eq, any_some,
          mem_cons]
        exact ⟨fun h => ⟨h.2, h.1, .inl h.2⟩, fun h => ⟨h.2.1, h.1⟩⟩
    · refine filter_congr fun a _ => ?_
      rw [Bool.eq_iff_iff]
      cases hla : label a with
      | none => simp
      | some b' =>
        simp only [Option.some.injEq, Bool.and_eq_true, decide_eq_true_eq, any_some,
          mem_cons, Bool.not_eq_true', decide_eq_false_iff_not]
        constructor
        · rintro ⟨hS, hmem⟩
          exact ⟨fun he => hb (he ▸ hmem), hS, .inr hmem⟩
        · rintro ⟨hne, hS, hmem⟩
          exact ⟨hS, hmem.resolve_left hne⟩

end Lists

/-! ### Calls -/

open scoped Classical in
/-- The stored facts that a call is to return. -/
noncomputable def matching (ri : RangeIndex κ) (goal : List (Pattern κ))
    (indexArgs : List (IndexArg κ)) (facts : List (List κ)) : List (List κ) :=
  facts.filter fun f => decide (Satisfies ri goal indexArgs f)

open scoped Classical in
/-- Those of them that the range tree of a position has. -/
noncomputable def indexed (ri : RangeIndex κ) (i : Nat) (S : Set (κ × List κ))
    (facts : List (List κ)) : List (List κ) :=
  facts.filter fun f => decide (∃ b ∈ entry ri i f, b ∈ S)

variable {facts : List (List κ)}

theorem mem_matching :
    f ∈ matching ri goal indexArgs facts ↔ f ∈ facts ∧ Satisfies ri goal indexArgs f := by
  simp only [matching, mem_filter, decide_eq_true_eq]

omit [LinearOrder κ] in
theorem mem_indexed {S : Set (κ × List κ)} :
    f ∈ indexed ri i S facts ↔ f ∈ facts ∧ ∃ b ∈ entry ri i f, b ∈ S := by
  simp only [indexed, mem_filter, decide_eq_true_eq]

/-- An argument for the key unifies with the values of the instances. -/
theorem keyArg_unifies (hθ : Extends σ θ) (hv : p.Inst θ v) :
    (RangeIndex.keyArg p σ).unifies v = true := by
  rw [RangeIndex.keyArg]
  split
  next k hk => exact decide_eq_true (((Pattern.value_spec hk hθ v).mp hv).symm)
  next => exact (unify_isSome_iff v).mpr ⟨θ, hθ, hv⟩

theorem IndexArg.Has.bounds (ri : RangeIndex κ) {a : IndexArg κ} (h : a.Has v) (ha : a ≠ .free) :
    (a.bounds ri).1 ≤ v ∧ v ≤ (a.bounds ri).2 := by
  cases a with
  | free => exact absurd rfl ha
  | range lo hi => exact h
  | value w =>
    have hw : w = v := h
    exact ⟨hw.le, hw.ge⟩

/-- The facts that are called for a pair of a range tree. -/
theorem called_pair_iff (hri : ri.Proper arity) (hf : Proper ri arity f)
    (hps : posToVal ri.indexPos goal = some ps) {key : List (Pattern κ)}
    (hkey : posToVal ri.keyPos goal = some key)
    (hτ : ∀ θ, Extends τ θ ↔ Values θ indexArgs ps) (hp : arg i goal = some p)
    (hi : 1 ≤ i ∧ i ≤ arity) (b : κ × List κ) :
    f ∈ ((p.unify b.1 τ).bind (unifyAll key b.2)).elim []
        (ri.callFacts goal (indexArgs.map (IndexArg.bounds ri)) [f]) ↔
      Satisfies ri goal indexArgs f ∧ entry ri i f = some b := by
  obtain ⟨v, k⟩ := b
  obtain ⟨w, ks, hw, hks, hentry⟩ := entry_exists hri.key hi hf.length
  have hwk : ∀ θ, InstAll θ goal f → p.Inst θ w ∧ InstAll θ key ks :=
    fun θ hinst => ⟨inst_arg hinst hp hw, inst_posToVal hinst hkey hks⟩
  have hspec := p.unify_spec v τ
  cases hone : p.unify v τ with
  | none =>
    rw [hone] at hspec
    simp only [bind_none, elim_none, not_mem_nil, false_iff]
    rintro ⟨⟨⟨θ, hinst⟩, vs, hvs, hall⟩, he⟩
    rw [hentry] at he
    cases he
    exact hspec θ ((hτ θ).mpr (values_of_inst (inst_posToVal hinst hps hvs) hall)) (hwk θ hinst).1
  | some υ =>
    rw [hone] at hspec
    have hspec' := unifyAll_spec key k υ
    simp only [bind_some]
    cases htwo : unifyAll key k υ with
    | none =>
      rw [htwo] at hspec'
      simp only [elim_none, not_mem_nil, false_iff]
      rintro ⟨⟨⟨θ, hinst⟩, vs, hvs, hall⟩, he⟩
      rw [hentry] at he
      cases he
      have hvalues := (hτ θ).mpr (values_of_inst (inst_posToVal hinst hps hvs) hall)
      exact hspec' θ ((hspec θ).mpr ⟨hvalues, (hwk θ hinst).1⟩) (hwk θ hinst).2
    | some ρ =>
      rw [htwo] at hspec'
      have hρ : ∀ θ, Extends ρ θ ↔ Values θ indexArgs ps ∧ (p.Inst θ v ∧ InstAll θ key k) := by
        intro θ
        rw [hspec' θ, hspec θ, hτ θ, and_assoc]
      simp only [elim_some, RangeIndex.callFacts, mem_filter, List.mem_singleton,
        true_and]
      rw [called_iff hri hf hps hρ, hentry]
      constructor
      · rintro ⟨⟨θ, ⟨hv, hk⟩, hinst⟩, hall⟩
        obtain ⟨hw', hks'⟩ := hwk θ hinst
        rw [hv.unique hw', hk.unique hks']
        exact ⟨⟨⟨θ, hinst⟩, hall⟩, rfl⟩
      · rintro ⟨⟨⟨θ, hinst⟩, hall⟩, he⟩
        cases he
        exact ⟨⟨θ, hwk θ hinst, hinst⟩, hall⟩

/-- The facts that are called for the pairs in a range of a tree. -/
theorem called_perm (hri : ri.Proper arity)
    (hproper : ∀ f ∈ facts, Proper ri arity f) (hps : posToVal ri.indexPos goal = some ps)
    {key : List (Pattern κ)} (hkey : posToVal ri.keyPos goal = some key)
    (hτ : ∀ θ, Extends τ θ ↔ Values θ indexArgs ps) (hp : arg i goal = some p)
    (hi : 1 ≤ i ∧ i ≤ arity) {a : IndexArg κ} (ha : a ≠ .free)
    (hhas : ∀ f vs v, posToVal ri.indexPos f = some vs → List.Forall₂ IndexArg.Has indexArgs vs →
      arg i f = some v → a.Has v) {S : Set (κ × List κ)} {l : List (κ × List κ)} (hl : l.Nodup)
    (hmem : ∀ b, b ∈ l ↔ b ∈ S ∧ (a.bounds ri).1 ≤ b.1 ∧ b.1 ≤ (a.bounds ri).2 ∧
      (RangeIndex.keyArg p τ).unifies b.1 = true) :
    ((l.filterMap fun (v, k) => (p.unify v τ).bind (unifyAll key k)).flatMap
      (ri.callFacts goal (indexArgs.map (IndexArg.bounds ri)) facts)).Perm
        (indexed ri i S (matching ri goal indexArgs facts)) := by
  classical
  rw [filterMap_flatMap]
  have hone : ∀ b ∈ l, ((p.unify b.1 τ).bind (unifyAll key b.2)).elim []
      (ri.callFacts goal (indexArgs.map (IndexArg.bounds ri)) facts) =
        facts.filter fun f => decide (Satisfies ri goal indexArgs f) &&
          entry ri i f = some b := by
    intro b _
    have hiff : ∀ f ∈ facts, f ∈ ((p.unify b.1 τ).bind (unifyAll key b.2)).elim []
        (ri.callFacts goal (indexArgs.map (IndexArg.bounds ri)) [f]) ↔
          Satisfies ri goal indexArgs f ∧ entry ri i f = some b :=
      fun f hf => called_pair_iff hri (hproper f hf) hps hkey hτ hp hi b
    cases hb : (p.unify b.1 τ).bind (unifyAll key b.2) with
    | none =>
      rw [hb] at hiff
      rw [elim_none, eq_comm, filter_eq_nil_iff]
      intro f hf hdec
      rw [Bool.and_eq_true, decide_eq_true_iff, decide_eq_true_iff] at hdec
      exact absurd ((hiff f hf).mpr hdec) not_mem_nil
    | some ρ =>
      rw [hb] at hiff
      rw [elim_some, RangeIndex.callFacts]
      refine filter_congr fun f hf => ?_
      have hf' := hiff f hf
      simp only [elim_some, RangeIndex.callFacts, mem_filter, List.mem_singleton,
        true_and] at hf'
      rw [Bool.eq_iff_iff, hf', Bool.and_eq_true, decide_eq_true_iff, decide_eq_true_iff]
  have hflat : (l.flatMap fun b => ((p.unify b.1 τ).bind (unifyAll key b.2)).elim []
      (ri.callFacts goal (indexArgs.map (IndexArg.bounds ri)) facts)) =
        l.flatMap fun b => facts.filter fun f => decide (Satisfies ri goal indexArgs f) &&
          entry ri i f = some b := flatMap_congr hone
  rw [hflat]
  refine (flatMap_filter_perm hl facts).trans (.of_eq ?_)
  rw [indexed, matching, List.filter_filter]
  refine filter_congr fun f hf => ?_
  obtain ⟨v, k, hv, hk, hentry⟩ := entry_exists hri.key hi (hproper f hf).length
  rw [Bool.eq_iff_iff, hentry]
  simp only [any_some, Bool.and_eq_true, decide_eq_true_eq, mem_def,
    Option.some.injEq, exists_eq_left']
  rw [and_comm]
  refine and_congr_left fun hsat => ?_
  obtain ⟨⟨θ, hinst⟩, vs, hvs, hall⟩ := hsat
  obtain ⟨hlo, hhi⟩ := (hhas f vs v hvs hall hv).bounds ri ha
  have hθ := (hτ θ).mpr (values_of_inst (inst_posToVal hinst hps hvs) hall)
  rw [hmem]
  exact and_iff_left ⟨hlo, hhi, keyArg_unifies hθ (inst_arg hinst hp hv)⟩

/-- The key of the goal is ground when the constants among the ranges have been bound. -/
def KeyFixed (ri : RangeIndex κ) (goal : List (Pattern κ)) (indexArgs : List (IndexArg κ)) : Prop :=
  ∃ ps key ks, posToVal ri.indexPos goal = some ps ∧ posToVal ri.keyPos goal = some key ∧
    ∀ θ, Values θ indexArgs ps → InstAll θ key ks

/-- A call returns the facts that match, or those of them that the tree of an index has. -/
theorem rangeCall_spec (hri : ri.Proper arity) (h : Represents ri arity db c)
    (hgoal : goal.length = arity) (hlen : indexArgs.length = ri.indexPos.length)
    (hlegal : ∀ a ∈ indexArgs, a.Legal) :
    ∃ db' c' l N, (∀ n ≥ N, ri.rangeCall n goal indexArgs db = .ok (db', l)) ∧
      db'.facts = db.facts ∧ Represents ri arity db' c' ∧
      (∀ j, (c' j).getD ∅ = (c j).getD ∅) ∧
      (∀ j, (db'.tabled j = true ∧ c' j = none) ↔ (db.tabled j = true ∧ c j = none)) ∧
      (l.Perm (matching ri goal indexArgs db.facts) ∧
          ((∀ a ∈ indexArgs, a = .free) ∨ KeyFixed ri goal indexArgs) ∨
        ∃ a i, (a, i) ∈ indexArgs.zip ri.indexPos ∧ a ≠ .free ∧
          l.Perm (indexed ri i ((c i).getD ∅) (matching ri goal indexArgs db.facts))) := by
  classical
  obtain ⟨ps, hps⟩ := posToVal_exists (l := goal) fun i hi => hgoal ▸ hri.index i hi
  obtain ⟨key, hkey⟩ := posToVal_exists (l := goal) fun i hi => hgoal ▸ hri.key i hi
  have hpslen : indexArgs.length = ps.length :=
    hlen.trans (List.Forall₂.length_eq (posToVal_eq_some.mp hps))
  rcases extractVarRanges_spec ri (fun _ => none) hpslen hlegal with
    ⟨hrun, hnone⟩ | ⟨τ, hrun, hτ⟩
  · refine ⟨db, c, [], 0, fun n _ => ?_, rfl, h, fun _ => rfl, fun _ => Iff.rfl,
      .inl ⟨?_, .inr ⟨ps, key, [], hps, hkey, fun θ hv => absurd hv (hnone θ extends_none)⟩⟩⟩
    · simp only [RangeIndex.rangeCall, hps, hkey, hrun]
    · have hnil : matching ri goal indexArgs db.facts = [] := by
        rw [eq_nil_iff_forall_not_mem]
        intro f hf
        obtain ⟨-, ⟨θ, hinst⟩, vs, hvs, hall⟩ := mem_matching.mp hf
        exact hnone θ extends_none (values_of_inst (inst_posToVal hinst hps hvs) hall)
      rw [hnil]
  · have hτ' : ∀ θ, Extends τ θ ↔ Values θ indexArgs ps :=
      fun θ => (hτ θ).trans (and_iff_right extends_none)
    -- all facts are called with the bindings of the ranges
    have hdirect : ([τ].flatMap (ri.callFacts goal (indexArgs.map (IndexArg.bounds ri))
        db.facts)).Perm (matching ri goal indexArgs db.facts) := by
      rw [flatMap_singleton, RangeIndex.callFacts, matching]
      refine .of_eq (filter_congr fun f hf => ?_)
      rw [Bool.eq_iff_iff, called_iff (C := fun _ => True) hri (h.facts f hf) hps
        fun θ => (hτ' θ).trans (and_iff_left trivial).symm, decide_eq_true_iff]
      simp only [true_and]
      exact Iff.rfl
    by_cases hground : (valueAll τ key).isSome = true
    · obtain ⟨ks, hks⟩ := isSome_iff_exists.mp hground
      refine ⟨db, c, _, 0, fun n _ => ?_, rfl, h, fun _ => rfl, fun _ => Iff.rfl,
        .inl ⟨hdirect, .inr ⟨ps, key, ks, hps, hkey, fun θ hv => ?_⟩⟩⟩
      · simp only [RangeIndex.rangeCall, hps, hkey, hrun, if_pos hground]
      · exact (valueAll_spec hks ((hτ' θ).mpr hv) ks).mpr rfl
    · rcases getKeyForRangeValue_spec ri hlen hps key τ with
        ⟨hfree, hsolve⟩ | ⟨a, i, p, hzip, ha, hp, hhas, hsolve⟩
      · refine ⟨db, c, _, 0, fun n _ => ?_, rfl, h, fun _ => rfl, fun _ => Iff.rfl,
          .inl ⟨hdirect, .inl hfree⟩⟩
        simp only [RangeIndex.rangeCall, hps, hkey, hrun, if_neg hground, hsolve]
      · obtain ⟨c', hrep, hfacts, hget, -, hdead⟩ := h.init hri i
        obtain ⟨N, hN⟩ := (hrep.trees i).get ri.enum
        obtain ⟨l, hl, hnodup, hmem⟩ :=
          hN (a.bounds ri).1 (a.bounds ri).2 (RangeIndex.keyArg p τ)
        have hperm := called_perm hri h.facts hps hkey hτ' hp (hri.index i (of_mem_zip hzip).2)
          ha hhas hnodup hmem
        rw [hget] at hperm
        refine ⟨_, c', _, N, fun n hn => ?_, hfacts, hrep, hget, hdead,
          .inr ⟨a, i, hzip, ha, hperm⟩⟩
        simp only [RangeIndex.rangeCall, hps, hkey, hrun, if_neg hground, hsolve n db l (hl n hn),
          hfacts]

end XSBEngine.Ranges
