import Mathlib
import XSBEngine.Ranges.RangeCall

/-!
# Facts and their range trees

Calls are exact as long as each range tree has the key of every stored fact. What each goal has to
satisfy for this to stay so is a condition on the database before it.
-/

namespace XSBEngine.Ranges

open Function List Set XSBEngine.Library

variable {κ : Type*} [LinearOrder κ] {ri : RangeIndex κ} {arity n i j : Nat}
  {goal : List (Pattern κ)} {indexArgs : List (IndexArg κ)} {is : List Nat} {f g : List κ}
  {fs : List (List κ)} {db db' : Database κ} {c c' : Nat → Option (Set (κ × List κ))}
  {b : κ × List κ}

/-! ### Consistency -/

/-- Each range tree has an entry for every fact. -/
def Consistent (ri : RangeIndex κ) (db : Database κ) (c : Nat → Option (Set (κ × List κ))) : Prop :=
  ∀ i ∈ ri.indexPos, ∀ f ∈ db.facts, ∀ b ∈ entry ri i f, b ∈ (c i).getD ∅

/-- All calls return exactly the stored facts that match the goal and are in the ranges. -/
def Exact (ri : RangeIndex κ) (arity : Nat) (db : Database κ) : Prop :=
  ∀ goal indexArgs, goal.length = arity → indexArgs.length = ri.indexPos.length →
    (∀ a ∈ indexArgs, a.Legal) →
      ∃ db' l N, (∀ n ≥ N, ri.rangeCall n goal indexArgs db = .ok (db', l)) ∧
        l.Perm (matching ri goal indexArgs db.facts)

/-- The goal with different variables. -/
def anyGoal (κ : Type*) (arity : Nat) : List (Pattern κ) := (List.range arity).map .var

omit [LinearOrder κ] in
theorem anyGoal_arg (hi : 1 ≤ i ∧ i ≤ arity) : arg i (anyGoal κ arity) = some (.var (i - 1)) := by
  obtain ⟨k, rfl⟩ := Nat.exists_eq_add_of_le' hi.1
  rw [arg, anyGoal, List.getElem?_map, List.getElem?_range (by omega)]
  rfl

omit [LinearOrder κ] in
/-- Any fact is an instance of that goal. -/
theorem inst_anyGoal (hf : f.length = arity) (d : κ) :
    InstAll (fun k => f.getD k d) (anyGoal κ arity) f := by
  have hall : ∀ (l : List Nat) (f : List κ) (θ : Nat → κ), l.map θ = f →
      InstAll θ (l.map .var) f := by
    intro l
    induction l with
    | nil =>
      rintro f θ rfl
      rw [map_nil, map_nil, InstAll]
      trivial
    | cons k l ih =>
      rintro f θ rfl
      rw [map_cons, map_cons, InstAll, Pattern.Inst]
      exact ⟨rfl, ih _ θ rfl⟩
  refine hall _ _ _ (ext_getElem ?_ fun k hk hk' => ?_)
  · rw [length_map, length_range, hf]
  · rw [getElem_map, getElem_range, getD_eq_getElem _ _ hk']

/-- Calls return stored facts, and on consistent trees all that match. -/
theorem call_spec (hri : ri.Proper arity) (h : Represents ri arity db c)
    (hgoal : goal.length = arity) (hlen : indexArgs.length = ri.indexPos.length)
    (hlegal : ∀ a ∈ indexArgs, a.Legal) :
    ∃ db' c' l N, (∀ n ≥ N, ri.rangeCall n goal indexArgs db = .ok (db', l)) ∧
      db'.facts = db.facts ∧ Represents ri arity db' c' ∧ (∀ j, (c' j).getD ∅ = (c j).getD ∅) ∧
      (∀ f ∈ l, f ∈ db.facts) ∧
      (Consistent ri db c → l.Perm (matching ri goal indexArgs db.facts)) := by
  obtain ⟨db', c', l, N, hrun, hfacts, hrep, hget, -, hperm⟩ :=
    rangeCall_spec hri h hgoal hlen hlegal
  refine ⟨db', c', l, N, hrun, hfacts, hrep, hget, ?_⟩
  rcases hperm with ⟨hperm, -⟩ | ⟨a, i, hzip, -, hperm⟩
  · exact ⟨fun f hf => (mem_matching.mp (hperm.mem_iff.mp hf)).1, fun _ => hperm⟩
  · have hi := (of_mem_zip hzip).2
    refine ⟨fun f hf => (mem_matching.mp (mem_indexed.mp (hperm.mem_iff.mp hf)).1).1, fun hc => ?_⟩
    have hall : indexed ri i ((c i).getD ∅) (matching ri goal indexArgs db.facts) =
        matching ri goal indexArgs db.facts := by
      rw [indexed, filter_eq_self]
      intro f hf
      have hmem := (mem_matching.mp hf).1
      obtain ⟨v, k, -, -, hentry⟩ := entry_exists hri.key (hri.index i hi) (h.facts f hmem).length
      simp only [decide_eq_true_eq]
      exact ⟨_, hentry, hc i hi f hmem _ hentry⟩
    rw [hall] at hperm
    exact hperm

theorem Consistent.exact (hri : ri.Proper arity) (h : Represents ri arity db c)
    (hc : Consistent ri db c) : Exact ri arity db := by
  intro goal indexArgs hgoal hlen hlegal
  obtain ⟨db', c', l, N, hrun, -, -, -, -, hperm⟩ := call_spec hri h hgoal hlen hlegal
  exact ⟨db', l, N, hrun, hperm hc⟩

omit [LinearOrder κ] in
/-- Ranges that are no constants bind nothing. -/
theorem values_of_ne {θ : Nat → κ} {ps : List (Pattern κ)}
    (h : ∀ a ∈ indexArgs, ∀ w, a ≠ .value w) : Values θ indexArgs ps := by
  induction indexArgs generalizing ps with
  | nil => cases ps <;> simp [Values]
  | cons a args ih =>
    have hrest := fun ps => @ih ps fun b hb => h b (mem_cons_of_mem _ hb)
    have ha := h a mem_cons_self
    cases ps with
    | nil => cases a <;> simp [Values]
    | cons p ps =>
      rw [Values]
      · exact hrest ps
      · rintro w rfl
        exact ha w rfl

/-- The ranges that look for a value of one indexed argument. -/
def lookup (ri : RangeIndex κ) (i : Nat) (v : κ) : List (IndexArg κ) :=
  ri.indexPos.map fun j => if j = i then .range v v else .free

omit [LinearOrder κ] in
theorem mem_lookup {v : κ} {a : IndexArg κ} (ha : a ∈ lookup ri i v) :
    a = .range v v ∨ a = .free := by
  obtain ⟨j, -, rfl⟩ := mem_map.mp ha
  split
  next => exact .inl rfl
  next => exact .inr rfl

omit [LinearOrder κ] in
theorem mem_zip_lookup {v : κ} {a : IndexArg κ} (h : (a, j) ∈ (lookup ri i v).zip ri.indexPos)
    (ha : a ≠ .free) : j = i := by
  rw [lookup] at h
  generalize ri.indexPos = is at h
  induction is with
  | nil => cases h
  | cons k is ih =>
    rw [map_cons, zip_cons_cons] at h
    rcases mem_cons.mp h with he | h
    · obtain ⟨rfl, rfl⟩ := Prod.mk.inj he
      by_contra hne
      exact ha (if_neg hne)
    · exact ih h

/-- The key of different variables is not fixed. -/
theorem not_keyFixed (hri : ri.Proper arity) {v : κ} :
    ¬KeyFixed ri (anyGoal κ arity) (lookup ri i v) := by
  rintro ⟨ps, key, ks, -, hkey, hfixed⟩
  have hvalues : ∀ θ : Nat → κ, Values θ (lookup ri i v) ps := by
    refine fun θ => values_of_ne fun a ha w he => ?_
    rcases mem_lookup ha with rfl | rfl
    · cases he
    · cases he
  cases hpos : ri.keyPos with
  | nil => exact hri.key_ne hpos
  | cons j js =>
    rw [hpos] at hkey
    cases posToVal_eq_some.mp hkey with
    | @cons _ p _ qs hp _ =>
      rw [anyGoal_arg (hri.key j (hpos ▸ mem_cons_self))] at hp
      cases hp
      have hone : ∀ d : κ, ∃ w ks', ks = w :: ks' ∧ d = w := by
        intro d
        have hinst := hfixed (fun _ => d) (hvalues _)
        cases ks with
        | nil => rw [InstAll] at hinst; exact hinst.elim
        | cons w ks =>
          rw [InstAll, Pattern.Inst] at hinst
          exact ⟨w, ks, rfl, hinst.1⟩
      obtain ⟨w, ks', rfl, hlo⟩ := hone ri.minValue
      obtain ⟨w', ks'', he, hhi⟩ := hone ri.maxValue
      cases he
      exact hri.lt.ne (hlo.trans hhi.symm)

/-- A fact that a range tree lacks is not found by its indexed argument. -/
theorem Exact.consistent (hri : ri.Proper arity) (h : Represents ri arity db c)
    (he : Exact ri arity db) : Consistent ri db c := by
  intro i hi f hf b hb
  by_contra hnot
  have hlen := (h.facts f hf).length
  obtain ⟨v, k, hv, hk, hentry⟩ := entry_exists hri.key (hri.index i hi) hlen
  rw [hentry] at hb
  cases hb
  have hlegal : ∀ a ∈ lookup ri i v, a.Legal := by
    intro a ha
    rcases mem_lookup ha with rfl | rfl
    · exact le_refl v
    · trivial
  have hgoal : (anyGoal κ arity).length = arity := by
    rw [anyGoal, length_map, length_range]
  have hargs : (lookup ri i v).length = ri.indexPos.length := length_map ..
  have hsat : Satisfies ri (anyGoal κ arity) (lookup ri i v) f := by
    obtain ⟨vs, hvs, -⟩ := (h.facts f hf).index_exists hri
    refine ⟨⟨_, inst_anyGoal hlen v⟩, vs, hvs, ?_⟩
    rw [lookup, forall₂_map_left_iff]
    refine (posToVal_eq_some.mp hvs).imp fun j w hw => ?_
    split
    next hji =>
      rw [hji, hv] at hw
      cases hw
      exact ⟨le_refl v, le_refl v⟩
    next => trivial
  obtain ⟨db1, c1, l1, N1, hrun1, -, -, -, -, hperm1⟩ := rangeCall_spec hri h hgoal hargs hlegal
  obtain ⟨db2, l2, N2, hrun2, hperm2⟩ := he _ _ hgoal hargs hlegal
  have hsame := (hrun1 _ (le_max_left N1 N2)).symm.trans (hrun2 _ (le_max_right N1 N2))
  have hl : l1 = l2 := (Prod.mk.inj (Except.ok.inj hsame)).2
  have hmem : f ∈ l1 := hl ▸ hperm2.mem_iff.mpr (mem_matching.mpr ⟨hf, hsat⟩)
  rcases hperm1 with ⟨-, hfree | hfixed⟩ | ⟨a, j, hzip, ha, hperm⟩
  · have hin : IndexArg.range v v ∈ lookup ri i v := mem_map.mpr ⟨i, hi, if_pos rfl⟩
    cases hfree _ hin
  · exact not_keyFixed hri hfixed
  · rw [mem_zip_lookup hzip ha] at hperm
    obtain ⟨-, b, hb, hmem⟩ := mem_indexed.mp (hperm.mem_iff.mp hmem)
    rw [hentry] at hb
    cases hb
    exact hnot hmem

/-! ### Assertion -/

/-- A tree is replaced by one that holds other pairs. -/
theorem Represents.put (h : Represents ri arity db c) {t : Tree κ (List κ)}
    {S : Option (Set (κ × List κ))} (ht : Holds ri.minValue ri.maxValue t S)
    (hnext : db.trees.next ≤ t.next) (htab : db.tabled i = false → S = none) :
    Represents ri arity { db with trees := db.trees.put i t } (update c i S) where
  trees j := by
    by_cases hji : j = i
    · rw [hji, update_self]
      exact ht.mono (update_self ..) (update_self ..) (le_refl _)
    · rw [update_of_ne hji]
      exact (h.trees j).mono (update_of_ne hji ..) (update_of_ne hji ..) hnext
  tabled j hj := by
    by_cases hji : j = i
    · rw [hji, update_self]
      exact htab (hji ▸ hj)
    · rw [update_of_ne hji]
      exact h.tabled j hj
  facts := h.facts

/-- The entries of a fact are added to the trees that are not deleted. -/
theorem assertRangeTrees_spec (hri : ri.Proper arity) (h : Represents ri arity db c)
    (hf : Proper ri arity f) (his : ∀ i ∈ is, i ∈ ri.indexPos) :
    ∃ db' c' N, (∀ n ≥ N, ri.assertRangeTrees n f is db = .ok db') ∧ db'.facts = db.facts ∧
      Represents ri arity db' c' ∧ (∀ j, (c j).getD ∅ ⊆ (c' j).getD ∅) ∧
      (∀ j, (db'.tabled j = true ∧ c' j = none) ↔ (db.tabled j = true ∧ c j = none)) ∧
      ((∀ i ∈ is, ¬(db.tabled i = true ∧ c i = none)) →
        ∀ i ∈ is, ∀ b ∈ entry ri i f, b ∈ (c' i).getD ∅) := by
  induction is generalizing db c with
  | nil =>
    exact ⟨db, c, 0, fun _ _ => rfl, rfl, h, fun _ => Subset.rfl, fun _ => Iff.rfl,
      fun _ i hi => absurd hi not_mem_nil⟩
  | cons i is ih =>
    have hi := his i mem_cons_self
    obtain ⟨v, k, hv, hk, hentry⟩ := entry_exists hri.key (hri.index i hi) hf.length
    have hin := hf.inside i hi v hv
    obtain ⟨c1, h1, hfacts1, hget1, htab1, hdead1⟩ := h.init hri i
    cases hci : c1 i with
    | none =>
      -- the tree has been deleted
      have hrt : ((ri.initRangeTreeIfNec i db).trees.tree i).rt = [] := by
        have hholds := h1.trees i
        rw [hci] at hholds
        exact hholds.1
      refine ⟨_, c1, 1, fun n hn => ?_, hfacts1, h1, fun j => (hget1 j).ge, hdead1,
        fun hlive => ?_⟩
      · obtain ⟨n, rfl⟩ := Nat.exists_eq_add_of_le' hn
        rw [RangeIndex.assertRangeTrees, hv, hk]
        simp only [addToRangeTree, nodes_nil ri.enum hrt, List.find?_nil]
      · exact absurd ((hdead1 i).mp ⟨htab1, hci⟩) (hlive i mem_cons_self)
    | some S =>
      have hholds := h1.trees i
      rw [hci] at hholds
      obtain ⟨t, N, hadd, hvalid, hpairs, hnext⟩ :=
        hholds.1.add ri.enum ⟨hin.1.le, hin.2⟩ k
      have h2 := h1.put (i := i) (S := some (insert (v, k) S)) (t := t)
        ⟨hvalid, hpairs.trans (congrArg _ hholds.2)⟩ hnext fun hn => absurd htab1 (by simp [hn])
      have hdead2 : ∀ j, ((ri.initRangeTreeIfNec i db).tabled j = true ∧
          update c1 i (some (insert (v, k) S)) j = none) ↔
            (db.tabled j = true ∧ c j = none) := by
        intro j
        rw [← hdead1 j]
        refine and_congr_right fun _ => ?_
        by_cases hji : j = i
        · rw [hji, update_self, hci]
          exact iff_of_false (by rintro ⟨⟩) (by rintro ⟨⟩)
        · rw [update_of_ne hji]
      obtain ⟨db', c', M, hrun, hfacts', hrep, hmono, hdead, hentries⟩ :=
        ih h2 fun j hj => his j (mem_cons_of_mem _ hj)
      have hmono2 : ∀ j, (c j).getD ∅ ⊆
          (update c1 i (some (insert (v, k) S)) j).getD ∅ := by
        intro j
        rw [← hget1 j]
        by_cases hji : j = i
        · rw [hji, update_self, hci]
          exact subset_insert _ _
        · rw [update_of_ne hji]
      refine ⟨db', c', max N M, fun n hn => ?_, hfacts'.trans hfacts1, hrep,
        fun j => (hmono2 j).trans (hmono j), fun j => (hdead j).trans (hdead2 j), fun hlive => ?_⟩
      · rw [RangeIndex.assertRangeTrees, hv, hk]
        simp only [hadd n ((le_max_left N M).trans hn)]
        exact hrun n ((le_max_right N M).trans hn)
      · intro j hj b hb
        rcases mem_cons.mp hj with rfl | hj
        · rw [hentry] at hb
          cases hb
          refine hmono j ?_
          rw [update_self]
          exact mem_insert _ _
        · exact hentries (fun j hj hd ↦ hlive j (mem_cons_of_mem _ hj) ((hdead2 j).mp hd)) j hj
            b hb

theorem rangeAssert_spec (hri : ri.Proper arity) (h : Represents ri arity db c)
    (hf : Proper ri arity f) :
    ∃ db' c' N, (∀ n ≥ N, ri.rangeAssert n f db = .ok db') ∧ Represents ri arity db' c' ∧
      (Consistent ri db c →
        (Consistent ri db' c' ↔ ∀ i ∈ ri.indexPos, ¬(db.tabled i = true ∧ c i = none))) := by
  have h0 : Represents ri arity { db with facts := db.facts ++ [f] } c := by
    refine ⟨h.trees, h.tabled, fun g hg => ?_⟩
    rcases mem_append.mp hg with hg | hg
    · exact h.facts g hg
    · rw [mem_singleton.mp hg]
      exact hf
  obtain ⟨db', c', N, hrun, hfacts, hrep, hmono, hdead, hentries⟩ :=
    assertRangeTrees_spec hri h0 hf fun i hi => hi
  refine ⟨db', c', N, hrun, hrep, fun hc =>
    ⟨fun hc' i hi hd => ?_, fun hlive i hi g hg b hb => ?_⟩⟩
  · obtain ⟨v, k, -, -, hentry⟩ := entry_exists hri.key (hri.index i hi) hf.length
    have hmem : f ∈ db'.facts := by
      rw [hfacts]
      exact mem_append_right _ mem_cons_self
    have hb := hc' i hi f hmem _ hentry
    rw [((hdead i).mpr hd).2] at hb
    exact hb
  · rw [hfacts] at hg
    rcases mem_append.mp hg with hg | hg
    · exact hmono i (hc i hi g hg b hb)
    · rw [mem_singleton.mp hg] at hb
      exact hentries hlive i hi b hb

/-! ### Retraction -/

omit [LinearOrder κ] in
theorem mem_deletions {v : κ} {k : List κ} : (i, Op.delete v (some k)) ∈ ri.deletions f ↔
    i ∈ ri.indexPos ∧ entry ri i f = some (v, k) := by
  rw [RangeIndex.deletions, mem_filterMap]
  constructor
  · rintro ⟨j, hj, he⟩
    split at he
    next w ks hw hks =>
      cases he
      exact ⟨hj, by rw [entry, hw, hks]⟩
    next => cases he
  · rintro ⟨hi, he⟩
    refine ⟨i, hi, ?_⟩
    cases hw : arg i f with
    | none =>
      rw [entry, hw] at he
      cases he
    | some w =>
      cases hks : posToVal ri.keyPos f with
      | none =>
        rw [entry, hw, hks] at he
        cases he
      | some ks =>
        rw [entry, hw, hks] at he
        cases he
        rfl

omit [LinearOrder κ] in
theorem deletions_delete (ri : RangeIndex κ) (f : List κ) :
    ∀ o ∈ ri.deletions f, ∃ i v k, o = (i, Op.delete v (some k)) := by
  intro o ho
  obtain ⟨j, -, he⟩ := mem_filterMap.mp ho
  split at he
  next w ks _ _ =>
    cases he
    exact ⟨j, w, ks, rfl⟩
  next => cases he

omit [LinearOrder κ] in
/-- Deletions remove single pairs. -/
theorem effects_delete {ops : List (Nat × Op κ (List κ))}
    (hops : ∀ o ∈ ops, ∃ i v k, o = (i, Op.delete v (some k))) :
    (effects ops c j = none ↔ c j = none) ∧ ∀ p, p ∈ (effects ops c j).getD ∅ ↔
      p ∈ (c j).getD ∅ ∧ (j, Op.delete p.1 (some p.2)) ∉ ops := by
  induction ops generalizing c with
  | nil => simp [effects]
  | cons o ops ih =>
    obtain ⟨i, v, k, rfl⟩ := hops o mem_cons_self
    obtain ⟨hnone, hmem⟩ := ih (c := update c i ((Op.delete v (some k)).effect (c i)))
      fun o ho => hops o (mem_cons_of_mem _ ho)
    rw [effects]
    by_cases hji : j = i
    · rw [hji, update_self] at hnone hmem
      rw [hji]
      cases hci : c i with
      | none =>
        rw [hci] at hnone hmem
        refine ⟨hnone, fun p => ?_⟩
        rw [hmem p]
        exact iff_of_false (fun hn => hn.1) fun hn => hn.1
      | some S =>
        rw [hci] at hnone hmem
        refine ⟨hnone.trans (iff_of_false nofun nofun), fun ⟨w, ks⟩ => ?_⟩
        rw [hmem]
        have hdel : (w, ks) ∈ deleted v (some k) ↔ w = v ∧ ks = k :=
          and_congr_right fun _ => ⟨fun hn => hn k rfl, by rintro rfl _ ⟨⟩; rfl⟩
        show ((w, ks) ∈ S \ deleted v (some k)) ∧ _ ↔ (w, ks) ∈ S ∧ _
        rw [mem_sdiff, hdel, mem_cons, not_or, and_assoc]
        refine and_congr_right fun _ => and_congr_left fun _ => not_congr ?_
        constructor
        · rintro ⟨rfl, rfl⟩
          rfl
        · rintro ⟨⟩
          exact ⟨rfl, rfl⟩
    · rw [update_of_ne hji] at hnone hmem
      refine ⟨hnone, fun p => ?_⟩
      rw [hmem p, mem_cons, not_or]
      refine and_congr_right fun _ => (and_iff_right fun he => hji ?_).symm
      exact (Prod.mk.inj he).1

/-- Facts are removed with their entries. -/
theorem retractFacts_spec (hri : ri.Proper arity) (h : Represents ri arity db c)
    (hfs : ∀ f ∈ fs, Proper ri arity f) :
    ∃ db' c' N, (∀ n ≥ N, ri.retractFacts n fs db = .ok db') ∧
      (∀ g, g ∈ db'.facts ↔ g ∈ db.facts ∧ g ∉ fs) ∧ Represents ri arity db' c' ∧
      ∀ i ∈ ri.indexPos, ∀ b, b ∈ (c' i).getD ∅ ↔
        b ∈ (c i).getD ∅ ∧ ∀ f ∈ fs, entry ri i f ≠ some b := by
  induction fs generalizing db c with
  | nil => exact ⟨db, c, 0, fun _ _ => rfl, by simp, h, by simp⟩
  | cons f fs ih =>
    have hf := hfs f mem_cons_self
    have hinside : ∀ o ∈ ri.deletions f, o.2.Inside ri.minValue ri.maxValue := by
      intro o ho
      obtain ⟨i, v, k, rfl⟩ := deletions_delete ri f o ho
      obtain ⟨hi, he⟩ := mem_deletions.mp ho
      obtain ⟨w, ks, hw, -, hentry⟩ := entry_exists hri.key (hri.index i hi) hf.length
      rw [hentry] at he
      cases he
      exact hf.inside i hi v hw
    obtain ⟨trees, N, hrun, hall⟩ := run_ok ri.enum hri.lt hinside h.trees
    have heffects := fun j => effects_delete (c := c) (j := j) (deletions_delete ri f)
    have h1 : Represents ri arity
        { db with facts := db.facts.filter fun g => g ≠ f, trees := trees }
          (effects (ri.deletions f) c) :=
      ⟨hall, fun j hj => (heffects j).1.mpr (h.tabled j hj),
        fun g hg => h.facts g (mem_filter.mp hg).1⟩
    obtain ⟨db', c', M, hrun', hfacts, hrep, hentries⟩ :=
      ih h1 fun g hg => hfs g (mem_cons_of_mem _ hg)
    refine ⟨db', c', max N M, fun n hn => ?_, fun g => ?_, hrep, fun i hi ⟨v, k⟩ => ?_⟩
    · rw [RangeIndex.retractFacts, hrun n ((le_max_left N M).trans hn)]
      exact hrun' n ((le_max_right N M).trans hn)
    · rw [hfacts, mem_filter, decide_eq_true_iff, mem_cons, not_or, and_assoc]
    · rw [hentries i hi, (heffects i).2, mem_deletions, and_assoc]
      refine and_congr_right fun _ => ?_
      simp only [mem_cons, forall_eq_or_imp, hi, true_and, ne_eq]

theorem legal_of_satisfies (h : Satisfies ri goal indexArgs f) : ∀ a ∈ indexArgs, a.Legal := by
  obtain ⟨-, vs, -, hall⟩ := h
  induction hall with
  | nil => nofun
  | @cons a v args vs ha _ ih =>
    intro a' ha'
    rcases mem_cons.mp ha' with rfl | ha'
    · cases a' with
      | range lo hi => exact ha.1.trans ha.2
      | free | value w => trivial
    · exact ih a' ha'

/-- An illegal range is an error, unless the call fails before. -/
theorem extractVarRanges_illegal (ri : RangeIndex κ) (ps : List (Pattern κ)) (σ : Bindings κ)
    (h : ¬∀ a ∈ indexArgs, a.Legal) : ri.extractVarRanges indexArgs ps σ = .error .illegal ∨
      ri.extractVarRanges indexArgs ps σ = .ok none := by
  induction indexArgs generalizing ps σ with
  | nil => exact absurd nofun h
  | cons a args ih =>
    rw [forall_mem_cons] at h
    cases ps with
    | nil => cases a <;> exact .inr rfl
    | cons p ps =>
      cases a with
      | free =>
        rw [RangeIndex.extractVarRanges]
        rcases ih ps σ fun hl => h ⟨trivial, hl⟩ with hr | hr
        · exact .inl (by rw [hr])
        · exact .inr (by rw [hr])
      | range lo hi =>
        rw [RangeIndex.extractVarRanges]
        split
        next hle =>
          rcases ih ps σ fun hl => h ⟨hle, hl⟩ with hr | hr
          · exact .inl (by rw [hr])
          · exact .inr (by rw [hr])
        next => exact .inl rfl
      | value v =>
        rw [RangeIndex.extractVarRanges]
        cases p.unify v σ with
        | none => exact .inr rfl
        | some τ =>
          rcases ih ps τ fun hl => h ⟨trivial, hl⟩ with hr | hr
          · exact .inl (by simp only [hr])
          · exact .inr (by simp only [hr])

theorem rangeCall_illegal (ri : RangeIndex κ) (n : Nat) (goal : List (Pattern κ))
    (db : Database κ) (h : ¬∀ a ∈ indexArgs, a.Legal) :
    ri.rangeCall n goal indexArgs db = .error .illegal ∨
      ri.rangeCall n goal indexArgs db = .ok (db, []) := by
  rw [RangeIndex.rangeCall]
  split
  next ps key _ _ =>
    rcases extractVarRanges_illegal ri ps (fun _ => none) h with hr | hr
    · exact .inl (by simp only [hr])
    · exact .inr (by simp only [hr])
  next => exact .inr rfl

/-! ### Goals -/

/-- The facts and the ranges have the lengths that the positions ask for. -/
def FactOp.Proper (ri : RangeIndex κ) (arity : Nat) : FactOp κ → Prop
  | assert f => Ranges.Proper ri arity f
  | retractall goal indexArgs => goal.length = arity ∧ indexArgs.length = ri.indexPos.length
  | call goal indexArgs => goal.length = arity ∧ indexArgs.length = ri.indexPos.length

/-- What a goal has to satisfy. An assertion finds the trees of all indexes if they have been made;
a retraction without ranges leaves no facts; and a retraction with ranges leaves no fact that agrees
with a removed one in its key and an indexed argument. -/
def FactOp.Keeps (ri : RangeIndex κ) (db : Database κ) : FactOp κ → Prop
  | assert _ => ∀ i ∈ ri.indexPos, db.tabled i = true → db.trees.rt i ≠ []
  | retractall goal indexArgs =>
    if ∀ a ∈ indexArgs, a = .free then
      ri.indexPos = [] ∨ ∀ f ∈ db.facts, Satisfies ri goal indexArgs f
    else ∀ f ∈ db.facts, Satisfies ri goal indexArgs f → ∀ g ∈ db.facts,
      ¬Satisfies ri goal indexArgs g → ∀ i ∈ ri.indexPos, entry ri i f ≠ entry ri i g
  | call _ _ => True

/-- A tree without nodes is one that has been deleted or not been made. -/
theorem Holds.none_iff {t : Tree κ (List κ)} {S : Option (Set (κ × List κ))} {a b : κ} (hab : a < b)
    (h : Holds a b t S) : S = none ↔ t.rt = [] := by
  cases S with
  | none => exact iff_of_true rfl h.1
  | some S =>
    refine iff_of_false nofun fun hrt => ?_
    obtain ⟨level, hshape⟩ := h.1.shape
    obtain ⟨p, ⟨leaf, hp⟩, -⟩ := hshape.root.exists_of_mem (left_mem_Ico.mpr hab)
    have hmem : (⟨.root, leaf, p⟩ : Rt κ) ∈ t.rt := hp
    rw [hrt] at hmem
    cases hmem

/-- A retraction without ranges deletes the trees. -/
theorem Represents.drop (h : Represents ri arity db c) (is : List Nat) {facts : List (List κ)}
    (hfacts : ∀ f ∈ facts, f ∈ db.facts) :
    Represents ri arity
      { db with
        facts := facts
        trees := is.foldl (fun s i => s.put i (deleteRangeTree (s.tree i))) db.trees }
      fun j => if j ∈ is then none else c j := by
  have htrees : ∀ (is : List Nat) (s : Store Nat κ (List κ)) (c : Nat → Option (Set (κ × List κ))),
      (∀ i, Holds ri.minValue ri.maxValue (s.tree i) (c i)) →
      ∀ i, Holds ri.minValue ri.maxValue
        ((is.foldl (fun s i => s.put i (deleteRangeTree (s.tree i))) s).tree i)
        (if i ∈ is then none else c i) := by
    intro is
    induction is with
    | nil => exact fun s c hs i => hs i
    | cons k is ih =>
      intro s c hs i
      have hput : ∀ i, Holds ri.minValue ri.maxValue
          ((s.put k (deleteRangeTree (s.tree k))).tree i) (update c k none i) := by
        intro i
        by_cases hik : i = k
        · rw [hik, update_self]
          exact ⟨update_self .., update_self ..⟩
        · rw [update_of_ne hik]
          exact (hs i).mono (update_of_ne hik ..) (update_of_ne hik ..)
            (le_refl _)
      have hall := ih _ _ hput i
      by_cases hik : i = k
      · rw [if_pos (hik ▸ mem_cons_self)]
        rw [hik, update_self, ite_self] at hall
        rw [hik]
        exact hall
      · rw [update_of_ne hik] at hall
        simp only [mem_cons, hik, false_or]
        exact hall
  refine ⟨htrees is db.trees c h.trees, fun j hj => ?_, fun f hf => h.facts f (hfacts f hf)⟩
  show (if j ∈ is then none else c j) = none
  rw [h.tabled j hj, ite_self]

/-- Where no argument has a range, the instances of the goal are to be returned. -/
theorem satisfies_free (hri : ri.Proper arity) (hf : Ranges.Proper ri arity f)
    (hlen : indexArgs.length = ri.indexPos.length) (hfree : ∀ a ∈ indexArgs, a = .free) :
    Satisfies ri goal indexArgs f ↔ (unifyAll goal f fun _ => none).isSome = true := by
  rw [unifyAll_isSome_iff ri.minValue]
  constructor
  · rintro ⟨⟨θ, hinst⟩, -⟩
    exact ⟨θ, extends_none, hinst⟩
  · rintro ⟨θ, -, hinst⟩
    obtain ⟨vs, hvs, -⟩ := hf.index_exists hri
    refine ⟨⟨θ, hinst⟩, vs, hvs, ?_⟩
    rw [forall₂_iff_get]
    refine ⟨hlen.trans (List.Forall₂.length_eq (posToVal_eq_some.mp hvs)), fun k hk hk' => ?_⟩
    rw [hfree _ (get_mem _ _)]
    trivial

/-- Consistent trees stay so when the goal keeps them. -/
theorem exec_spec (hri : ri.Proper arity) (h : Represents ri arity db c) {op : FactOp κ}
    (hop : op.Proper ri arity) :
    ∃ db' c' N, (∀ n ≥ N, op.exec ri n db = some db') ∧ Represents ri arity db' c' ∧
      (Consistent ri db c → (Consistent ri db' c' ↔ op.Keeps ri db)) := by
  cases op with
  | assert f =>
    obtain ⟨db', c', N, hrun, hrep, hiff⟩ := rangeAssert_spec hri h hop
    refine ⟨db', c', N, fun n hn => ?_, hrep, fun hc => (hiff hc).trans ?_⟩
    · rw [FactOp.exec, hrun n hn]
      rfl
    · refine forall₂_congr fun i _ => ?_
      rw [not_and]
      exact imp_congr_right fun _ => not_congr ((h.trees i).none_iff hri.lt)
  | call goal indexArgs =>
    by_cases hlegal : ∀ a ∈ indexArgs, a.Legal
    · obtain ⟨db', c', l, N, hrun, hfacts, hrep, hget, -⟩ := call_spec hri h hop.1 hop.2 hlegal
      refine ⟨db', c', N, fun n hn => ?_, hrep,
        fun hc => iff_of_true (fun i hi f hf b hb => ?_) trivial⟩
      · rw [FactOp.exec, hrun n hn]
      · rw [hget i]
        exact hc i hi f (hfacts ▸ hf) b hb
    · refine ⟨db, c, 0, fun n _ => ?_, h, fun hc => iff_of_true hc trivial⟩
      rcases rangeCall_illegal ri n goal db hlegal with hr | hr
      · rw [FactOp.exec, hr]
      · rw [FactOp.exec, hr]
  | retractall goal indexArgs =>
    by_cases hfree : ∀ a ∈ indexArgs, a = .free
    · have hsub : ∀ f ∈ db.facts.filter fun f => (unifyAll goal f fun _ => none).isNone,
          f ∈ db.facts := fun f hf => (mem_filter.mp hf).1
      refine ⟨_, _, 0, fun n _ => ?_, h.drop ri.indexPos hsub, fun _ => ?_⟩
      · rw [FactOp.exec, RangeIndex.rangeRetractall, if_pos hfree]
      · rw [FactOp.Keeps, if_pos hfree]
        constructor
        · intro hc'
          by_contra! hnot
          obtain ⟨hne, f, hf, hsat⟩ := hnot
          obtain ⟨i, hi⟩ := exists_mem_of_ne_nil _ hne
          have hf' := h.facts f hf
          rw [satisfies_free hri hf' hop.2 hfree] at hsat
          obtain ⟨v, k, -, -, hentry⟩ := entry_exists hri.key (hri.index i hi) hf'.length
          have hb := hc' i hi f (mem_filter.mpr ⟨hf, by simpa using hsat⟩) _ hentry
          simp only [if_pos hi] at hb
          exact hb
        · rintro (hnil | hall) i hi f hf b hb
          · rw [hnil] at hi
            cases hi
          · obtain ⟨hf, hnone⟩ := mem_filter.mp hf
            have hsome := (satisfies_free hri (h.facts f hf) hop.2 hfree).mp (hall f hf)
            rw [Option.isNone_iff_eq_none.mp hnone] at hsome
            cases hsome
    · by_cases hlegal : ∀ a ∈ indexArgs, a.Legal
      · obtain ⟨db1, c1, l, N, hrun, hfacts1, hrep1, hget1, hstored, hperm⟩ :=
          call_spec hri h hop.1 hop.2 hlegal
        obtain ⟨db2, c2, M, hrun2, hfacts2, hrep2, hmem2⟩ :=
          retractFacts_spec hri hrep1 fun f hf => h.facts f (hstored f hf)
        refine ⟨db2, c2, max N M, fun n hn => ?_, hrep2, fun hc => ?_⟩
        · rw [FactOp.exec, RangeIndex.rangeRetractall, if_neg hfree,
            hrun n ((le_max_left N M).trans hn)]
          simp only [hrun2 n ((le_max_right N M).trans hn)]
        · have hl : ∀ f, f ∈ l ↔ f ∈ db.facts ∧ Satisfies ri goal indexArgs f :=
            fun f => (hperm hc).mem_iff.trans mem_matching
          rw [FactOp.Keeps, if_neg hfree]
          constructor
          · intro hc' f hf hsat g hg hnot i hi he
            obtain ⟨v, k, -, -, hentry⟩ :=
              entry_exists hri.key (hri.index i hi) (h.facts g hg).length
            have hleft : g ∈ db2.facts :=
              (hfacts2 g).mpr ⟨hfacts1 ▸ hg, fun hgl => hnot ((hl g).mp hgl).2⟩
            have hb := (hmem2 i hi _).mp (hc' i hi g hleft _ hentry)
            exact hb.2 f ((hl f).mpr ⟨hf, hsat⟩) (he.trans hentry)
          · intro hkeeps i hi g hg b hb
            obtain ⟨hg, hgl⟩ := (hfacts2 g).mp hg
            rw [hfacts1] at hg
            have hnot : ¬Satisfies ri goal indexArgs g := fun hsat => hgl ((hl g).mpr ⟨hg, hsat⟩)
            rw [hmem2 i hi, hget1 i]
            refine ⟨hc i hi g hg b hb, fun f hf he => ?_⟩
            obtain ⟨hf, hsat⟩ := (hl f).mp hf
            exact hkeeps f hf hsat g hg hnot i hi (he.trans hb.symm)
      · refine ⟨db, c, 0, fun n _ => ?_, h, fun hc => iff_of_true hc ?_⟩
        · rw [FactOp.exec, RangeIndex.rangeRetractall, if_neg hfree]
          rcases rangeCall_illegal ri n goal db hlegal with hr | hr
          · simp only [hr]
          · simp only [hr, RangeIndex.retractFacts]
        · rw [FactOp.Keeps, if_neg hfree]
          exact fun f _ hsat => absurd (legal_of_satisfies hsat) hlegal

/-! ### Runs -/

/-- Every run has a result. -/
theorem states_exist (hri : ri.Proper arity) (h : Represents ri arity db c)
    {ops : List (FactOp κ)} (hops : ∀ op ∈ ops, op.Proper ri arity) :
    ∃ dbs N, ∀ n ≥ N, states ri n ops db = some (db :: dbs) := by
  induction ops generalizing db c with
  | nil => exact ⟨[], 0, fun _ _ => rfl⟩
  | cons op ops ih =>
    obtain ⟨db', c', N, hrun, hrep, -⟩ := exec_spec hri h (hops op mem_cons_self)
    obtain ⟨dbs, M, hrest⟩ := ih hrep fun op hop => hops op (mem_cons_of_mem _ hop)
    refine ⟨db' :: dbs, max N M, fun n hn => ?_⟩
    rw [states, hrun n ((le_max_left N M).trans hn)]
    simp only [hrest n ((le_max_right N M).trans hn), Option.map_some]

/-- From consistent trees, the calls in all states are exact if and only if all goals keep them. -/
theorem states_spec (hri : ri.Proper arity) (h : Represents ri arity db c)
    (hc : Consistent ri db c) {ops : List (FactOp κ)} (hops : ∀ op ∈ ops, op.Proper ri arity) :
    ∃ dbs N, (∀ n ≥ N, states ri n ops db = some (db :: dbs)) ∧
      ((∀ db' ∈ db :: dbs, Exact ri arity db') ↔
        ∀ x ∈ ops.zip (db :: dbs), x.1.Keeps ri x.2) := by
  induction ops generalizing db c with
  | nil =>
    refine ⟨[], 0, fun _ _ => rfl, iff_of_true (fun db' hdb => ?_) nofun⟩
    rw [mem_singleton.mp hdb]
    exact hc.exact hri h
  | cons op ops ih =>
    obtain ⟨db', c', N, hrun, hrep, hiff⟩ := exec_spec hri h (hops op mem_cons_self)
    have hops' := fun op hop => hops op (mem_cons_of_mem _ hop)
    by_cases hc' : Consistent ri db' c'
    · obtain ⟨dbs, M, hrest, hall⟩ := ih hrep hc' hops'
      refine ⟨db' :: dbs, max N M, fun n hn => ?_, ?_⟩
      · rw [states, hrun n ((le_max_left N M).trans hn)]
        simp only [hrest n ((le_max_right N M).trans hn), Option.map_some]
      · rw [forall_mem_cons, hall, zip_cons_cons, forall_mem_cons]
        exact and_congr_left fun _ => iff_of_true (hc.exact hri h) ((hiff hc).mp hc')
    · -- the tree that lacks a fact is noticed right after this goal
      obtain ⟨dbs, M, hrest⟩ := states_exist hri hrep hops'
      refine ⟨db' :: dbs, max N M, fun n hn => ?_, iff_of_false (fun hall => ?_) fun hall => ?_⟩
      · rw [states, hrun n ((le_max_left N M).trans hn)]
        simp only [hrest n ((le_max_right N M).trans hn), Option.map_some]
      · exact hc' ((hall db' (mem_cons_of_mem _ mem_cons_self)).consistent hri hrep)
      · exact hc' ((hiff hc).mpr (hall (op, db) mem_cons_self))

/-- Before the first goal. -/
def Database.start : Database κ := ⟨[], .start, fun _ => false⟩

theorem represents_start : Represents ri arity (.start : Database κ) fun _ => none where
  trees _ := ⟨rfl, rfl⟩
  tabled _ _ := rfl
  facts := nofun

/-- Facts with a key in the first argument and a range index on the second one. -/
def byId : RangeIndex Nat := ⟨listed Nat (List Nat), 0, 100, [1], [2]⟩

/-- A fact, the retraction of all facts, and another fact. -/
def reasserted : List (FactOp Nat) :=
  [.assert [1, 10], .retractall [.var 0, .var 1] [.free], .assert [2, 20]]

/-- Two facts. -/
def twoFacts : List (FactOp Nat) := [.assert [1, 10], .assert [2, 20]]

end XSBEngine.Ranges
