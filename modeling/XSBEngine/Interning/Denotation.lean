import Mathlib
import XSBEngine.Interning.Terms

/-!
# Interned terms and their records

Which ground terms records stand for: every record for one, and every ground term for at most one
record. `intern_rec` keeps this, unless there is no area for a record.
-/

namespace XSBEngine.Interning

open Finset Function Library Option PrefixTerms

/-- Free variables, and attributed ones. -/
inductive Var where
  | ref (a : Nat)
  | attv (a : Nat)
deriving Repr, DecidableEq

/-- The area of the records with a root. -/
def AreaOf (w : Words) (s : Interns) : Root → Nat → Prop
  | .const _, _ => False
  | .list, area => area = listIndex
  | .struct psc, area => w.arity psc ≤ 255 ∧ area = w.arity psc ∨
      256 < w.arity psc ∧ ∃ i < maxInternBigArities, s.bigArities i = w.arity psc ∧
        area = i + bigArityIndexBase

/-- Constants and pointers to records stand for ground terms. -/
inductive Stands (w : Words) (s : Interns) : List Cell → Tuple Root Var → Prop where
  | nil : Stands w s [] .nil
  | const {val : Nat} {cs : List Cell} {t : Tuple Root Var} :
      Stands w s cs t → Stands w s (.const val :: cs) (.app (.const val) .nil t)
  | record {tag : StrTag} {area : Nat} {r : RecPtr} {f : Root} {args cs : List Cell}
      {targs t : Tuple Root Var} :
      f.tag = tag → AreaOf w s f area → (s.hcBlock area).Interned r →
      (s.hcBlock area).termRec r = some ((f.recCells args).map w.word) →
      args.length + f.first = w.reclen f → Stands w s args targs → Stands w s cs t →
      Stands w s (.str tag (.record area r) :: cs) (.app f targs t)

/-- The records and the indices of big arities are kept. -/
structure Extends (s s' : Interns) : Prop where
  interned : ∀ area r, (s.hcBlock area).Interned r → (s'.hcBlock area).Interned r ∧
    (s'.hcBlock area).termRec r = (s.hcBlock area).termRec r
  bigArities : ∀ i, s.bigArities i ≠ 0 → s'.bigArities i = s.bigArities i

/-- The slots of the big arities are used from the first one on. -/
structure Slots (s : Interns) (k : Nat) : Prop where
  le : k ≤ maxInternBigArities
  big : ∀ i < k, 256 < s.bigArities i
  empty : ∀ i, k ≤ i → s.bigArities i = 0
  inj : ∀ i < k, ∀ j < k, s.bigArities i = s.bigArities j → i = j

/-- The records of all areas stand for terms. -/
structure InternsOK (w : Words) (s : Interns) : Prop where
  areas : AreasOK s.hcBlock
  slots : ∃ k, Slots s k
  stands : ∀ area r, (s.hcBlock area).Interned r →
    ∃ f targs, Stands w s [.str f.tag (.record area r)] (.app f targs .nil)

/-- The big arities that have an index. -/
def Interns.used (s : Interns) : Finset Nat :=
  ((Finset.range maxInternBigArities).image s.bigArities).erase 0

/-- The arity of a structure. -/
def rootArities (w : Words) : Root → Finset Nat
  | .struct psc => {w.arity psc}
  | _ => ∅

/-- The arities of the ground structures in a tuple. -/
def groundArities (w : Words) : Tuple Root Var → Finset Nat
  | .nil => ∅
  | .var _ t => groundArities w t
  | .app f args t =>
    groundArities w args ∪ (if args.vars = [] then rootArities w f else ∅) ∪ groundArities w t

/-- There is an area for each of the arities: 256 has none, and 140 of those above have. -/
def Fits (used arities : Finset Nat) : Prop :=
  256 ∉ arities ∧ (used ∪ arities.filter (256 < ·)).card ≤ maxInternBigArities

variable {w : Words} {s s' s'' : Interns} {cs cs' args : List Cell} {t t' targs : Tuple Root Var}
  {f : Root} {area i k n : Nat} {r : RecPtr} {c : Cell}

/-! ### Slots of big arities -/

section Slots

section

variable (h : Slots s k)
include h

theorem Slots.used_eq : s.used = (Finset.range k).image s.bigArities := by
  ext n
  simp only [Interns.used, mem_erase, mem_image, mem_range]
  constructor
  · rintro ⟨hn, i, -, rfl⟩
    refine ⟨i, ?_, rfl⟩
    by_contra hik
    exact hn (h.empty i (Nat.le_of_not_lt hik))
  · rintro ⟨i, hi, rfl⟩
    have hbig := h.big i hi
    exact ⟨by omega, i, Nat.lt_of_lt_of_le hi h.le, rfl⟩

theorem Slots.card_used : s.used.card = k := by
  rw [h.used_eq, card_image_of_injOn, card_range]
  intro i hi j hj heq
  exact h.inj i (mem_range.mp hi) j (mem_range.mp hj) heq

theorem Slots.lt_of_eq (hi : 256 < s.bigArities i) : i < k := by
  by_contra hik
  rw [h.empty i (Nat.le_of_not_lt hik)] at hi
  exact Nat.not_lt_zero _ hi

/-- The slot of an arity that has one. -/
theorem Slots.findSlot_used {m : Nat} (hi : i < k) (hn : s.bigArities i = n)
    {j : Nat} (hj : j ≤ i) (hm : i < j + m) : s.findSlot n j m = some (i, s) := by
  induction m generalizing j with
  | zero => omega
  | succ m ih =>
    have hbig := h.big j (Nat.lt_of_le_of_lt hj hi)
    rw [Interns.findSlot, if_neg (by omega)]
    split
    next heq => rw [h.inj j (Nat.lt_of_le_of_lt hj hi) i hi (heq.trans hn.symm)]
    next heq =>
      have hne : j ≠ i := by
        rintro rfl
        exact heq hn
      exact ih (by omega) (by omega)

/-- An arity without a slot gets the first empty one, if there is one. -/
theorem Slots.findSlot_new {m : Nat} (hn : n ∉ s.used) {j : Nat} (hj : j ≤ k) :
    s.findSlot n j m = if k < j + m then
      some (k, { s with bigArities := Function.update s.bigArities k n }) else none := by
  induction m generalizing j with
  | zero => rw [Interns.findSlot, if_neg (by omega)]
  | succ m ih =>
    rw [Interns.findSlot]
    rcases Nat.eq_or_lt_of_le hj with rfl | hlt
    · rw [if_pos (h.empty j le_rfl), if_pos (by omega)]
    · have hbig := h.big j hlt
      have hne : s.bigArities j ≠ n := by
        rintro rfl
        rw [h.used_eq] at hn
        exact hn (mem_image_of_mem _ (mem_range.mpr hlt))
      rw [if_neg (by omega), if_neg hne, ih hlt]
      have hiff : k < j + 1 + m ↔ k < j + (m + 1) := by omega
      simp only [hiff]

/-- A further arity. -/
theorem Slots.update (hk : k < maxInternBigArities) (hn : n ∉ s.used)
    (hbig : 256 < n) : Slots { s with bigArities := Function.update s.bigArities k n } (k + 1) where
  le := hk
  big i hi := by
    show 256 < Function.update s.bigArities k n i
    rcases eq_or_ne i k with rfl | hik
    · rwa [update_self]
    · rw [update_of_ne hik]
      exact h.big i (by omega)
  empty i hi := by
    show Function.update s.bigArities k n i = 0
    rw [update_of_ne (by omega)]
    exact h.empty i (by omega)
  inj i hi j hj heq := by
    have hnew : ∀ x < k, s.bigArities x ≠ n := by
      rintro x hx rfl
      rw [h.used_eq] at hn
      exact hn (mem_image_of_mem _ (mem_range.mpr hx))
    replace heq : Function.update s.bigArities k n i = Function.update s.bigArities k n j := heq
    rcases eq_or_ne i k with rfl | hik
    · rcases eq_or_ne j i with rfl | hji
      · rfl
      · rw [update_self, update_of_ne hji] at heq
        exact absurd heq.symm (hnew j (by omega))
    · rw [update_of_ne hik] at heq
      rcases eq_or_ne j k with rfl | hjk
      · rw [update_self] at heq
        exact absurd heq (hnew i (by omega))
      · rw [update_of_ne hjk] at heq
        exact h.inj i (by omega) j (by omega) heq

/-- What `get_big_arity_index` does. -/
theorem Slots.getBigArityIndex (n : Nat) :
    (Fits s.used {n} ∧ 256 < n → ∃ i s', s.getBigArityIndex n = .ok (i + bigArityIndexBase, s') ∧
      i < maxInternBigArities ∧ s'.bigArities i = n ∧ (∃ k', Slots s' k') ∧
      s'.used = insert n s.used ∧ s'.hcBlock = s.hcBlock ∧
      ∀ i, s.bigArities i ≠ 0 → s'.bigArities i = s.bigArities i) ∧
    (255 < n → ¬ Fits s.used {n} → ∃ msg, s.getBigArityIndex n = .error msg) := by
  have hcard : 256 < n → n ∉ s.used →
      (s.used ∪ ({n} : Finset Nat).filter (256 < ·)).card = k + 1 := by
    intro hbig hn
    rw [filter_singleton, if_pos hbig, union_comm, ← insert_eq,
      card_insert_of_notMem hn, h.card_used]
  constructor
  · rintro ⟨⟨-, hfits⟩, hbig⟩
    rw [Interns.getBigArityIndex, if_neg (by unfold bigArityIndexBase; omega)]
    by_cases hn : n ∈ s.used
    · rw [h.used_eq] at hn
      obtain ⟨i, hi, hin⟩ := mem_image.mp hn
      have hik := mem_range.mp hi
      have hlt := Nat.lt_of_lt_of_le hik h.le
      rw [h.findSlot_used hik hin (Nat.zero_le i) (by omega)]
      refine ⟨i, s, rfl, hlt, hin, ⟨k, h⟩, ?_, rfl, fun _ _ => rfl⟩
      rw [insert_eq_self.mpr]
      rw [h.used_eq]
      exact hn
    · have hk : k < maxInternBigArities := by
        rw [hcard hbig hn] at hfits
        exact hfits
      have hnew := h.update hk hn hbig
      rw [h.findSlot_new hn (Nat.zero_le k), if_pos (by omega)]
      refine ⟨k, _, rfl, hk, update_self .., ⟨k + 1, hnew⟩, ?_, rfl, fun i hi => ?_⟩
      · rw [hnew.used_eq, h.used_eq, range_add_one, image_insert]
        show insert (Function.update s.bigArities k n k) _ = _
        rw [update_self]
        congr 1
        apply image_congr
        intro i hi
        have hik : i < k := mem_range.mp hi
        exact update_of_ne (by omega) ..
      · apply update_of_ne
        rintro rfl
        exact hi (h.empty i le_rfl)
  · intro hlarge hfits
    rw [Interns.getBigArityIndex]
    by_cases hbig : n < bigArityIndexBase
    · exact ⟨_, if_pos hbig⟩
    · have h256 : 256 < n := by
        unfold bigArityIndexBase at hbig
        omega
      have hn : n ∉ s.used := by
        intro hn
        apply hfits
        refine ⟨fun hmem => ?_, ?_⟩
        · have heq := mem_singleton.mp hmem
          omega
        · rw [filter_singleton, if_pos h256, union_comm, ← insert_eq,
            insert_eq_self.mpr hn, h.card_used]
          exact h.le
      rw [if_neg hbig, h.findSlot_new hn (Nat.zero_le k), if_neg]
      · exact ⟨_, rfl⟩
      · intro hk
        apply hfits
        refine ⟨fun hmem => ?_, ?_⟩
        · have heq := mem_singleton.mp hmem
          omega
        · rw [hcard h256 hn]
          omega

end

end Slots

/-! ### What records stand for -/

section Stands

theorem recCells_inj {f' : Root} {args' : List Cell} (htag : f.tag = f'.tag)
    (hf : ∃ a, AreaOf w s f a) (hf' : ∃ a, AreaOf w s f' a)
    (heq : f.recCells args = f'.recCells args') : f = f' ∧ args = args' := by
  obtain ⟨a, ha⟩ := hf
  obtain ⟨a', ha'⟩ := hf'
  cases f with
  | const val => exact ha.elim
  | list =>
    cases f' with
    | const val => exact ha'.elim
    | list => exact ⟨rfl, heq⟩
    | struct psc => exact StrTag.noConfusion htag
  | struct psc =>
    cases f' with
    | const val => exact ha'.elim
    | list => exact StrTag.noConfusion htag
    | struct psc' =>
      obtain ⟨hpsc, hargs⟩ := List.cons.inj heq
      exact ⟨congrArg Root.struct (Cell.functor.inj hpsc), hargs⟩

/-- A root has one area. -/
theorem Slots.areaOf_unique {area' : Nat} (h : Slots s k) (ha : AreaOf w s f area)
    (ha' : AreaOf w s f area') : area = area' := by
  cases f with
  | const val => exact ha.elim
  | list => exact ha.trans ha'.symm
  | struct psc =>
    rcases ha with ⟨hle, rfl⟩ | ⟨hlt, i, -, hi, rfl⟩
    · rcases ha' with ⟨-, rfl⟩ | ⟨hlt', -⟩
      · rfl
      · omega
    · rcases ha' with ⟨hle', -⟩ | ⟨-, j, -, hj, rfl⟩
      · omega
      · rw [h.inj i (h.lt_of_eq (hi ▸ hlt)) j (h.lt_of_eq (hj ▸ hlt)) (hi.trans hj.symm)]

theorem AreaOf.lt (h : AreaOf w s f area) : area < 400 := by
  cases f with
  | const val => exact h.elim
  | list =>
    rw [show area = listIndex from h]
    decide
  | struct psc =>
    rcases h with ⟨hle, rfl⟩ | ⟨-, i, hi, -, rfl⟩
    · omega
    · unfold maxInternBigArities at hi
      unfold bigArityIndexBase
      omega

theorem AreaOf.mono (h : AreaOf w s f area) (hext : Extends s s') : AreaOf w s' f area := by
  cases f with
  | const val | list => exact h
  | struct psc =>
    rcases h with hsmall | ⟨hlt, i, hi, hpsc, rfl⟩
    · exact Or.inl hsmall
    · refine Or.inr ⟨hlt, i, hi, ?_, rfl⟩
      rw [hext.bigArities i (by omega), hpsc]

theorem Extends.refl (s : Interns) : Extends s s := ⟨fun _ _ h => ⟨h, rfl⟩, fun _ _ => rfl⟩

theorem Extends.trans (h : Extends s s') (h' : Extends s' s'') : Extends s s'' where
  interned area r hr := by
    obtain ⟨hr', hrec⟩ := h.interned area r hr
    obtain ⟨hr'', hrec'⟩ := h'.interned area r hr'
    exact ⟨hr'', hrec'.trans hrec⟩
  bigArities i hi := by
    have heq := h.bigArities i hi
    rw [h'.bigArities i (heq ▸ hi), heq]

section

variable (h : Stands w s cs t)
include h

theorem Stands.mono (hext : Extends s s') : Stands w s' cs t := by
  induction h with
  | nil => exact .nil
  | const _ ih => exact .const ih
  | record htag harea hr hrec hlen _ _ ihargs ih =>
    obtain ⟨hr', hrec'⟩ := hext.interned _ _ hr
    exact .record htag (harea.mono hext) hr' (hrec'.trans hrec) hlen ihargs ih

theorem Stands.ground : t.vars = [] := by
  induction h with
  | nil => rfl
  | const _ ih => exact ih
  | record _ _ _ _ _ _ _ ihargs ih =>
    rw [Tuple.vars, ihargs, ih]
    rfl

/-- Cells stand for one term. -/
theorem Stands.unique (h' : Stands w s cs t') : t = t' := by
  induction h generalizing t' with
  | nil =>
    cases h'
    rfl
  | const _ ih =>
    cases h' with
    | const h' => rw [ih h']
  | record htag harea hr hrec hlen _ _ ihargs ih =>
    cases h' with
    | record htag' harea' hr' hrec' hlen' hargs' h' =>
      have hmap := some.inj (hrec.symm.trans hrec')
      have hcells := List.map_injective_iff.mpr w.word_inj hmap
      obtain ⟨rfl, rfl⟩ := recCells_inj (htag.trans htag'.symm) ⟨_, harea⟩ ⟨_, harea'⟩ hcells
      rw [ihargs hargs', ih h']

/-- A term has one tuple of cells that stands for it. -/
theorem Stands.inj (h' : Stands w s cs' t) (hOK : InternsOK w s) :
    cs = cs' := by
  obtain ⟨k, hslots⟩ := hOK.slots
  induction h generalizing cs' with
  | nil =>
    cases h'
    rfl
  | const _ ih =>
    cases h' with
    | const h' => rw [ih h']
    | record _ harea => exact harea.elim
  | record htag harea hr hrec hlen _ _ ihargs ih =>
    cases h' with
    | const h' => exact harea.elim
    | record htag' harea' hr' hrec' hlen' hargs' h' =>
      obtain rfl := hslots.areaOf_unique harea harea'
      obtain rfl := ihargs hargs'
      obtain ⟨chains, free, hok⟩ := hOK.areas.area _
      obtain ⟨i, hi⟩ := hok.interned_iff.mp hr
      obtain ⟨j, hj⟩ := hok.interned_iff.mp hr'
      obtain rfl := hok.eq_of_contents hi hj (hrec.trans hrec'.symm)
      rw [← htag, ← htag', ih h']

end

/-- The pointers that stand for terms are interned. -/
theorem Stands.isinternstr {tag : StrTag} (h : Stands w s [.str tag (.record area r)] t)
    (hOK : InternsOK w s) : s.isinternstr w (.str tag (.record area r)) = some true := by
  obtain ⟨k, hslots⟩ := hOK.slots
  cases h with
  | @record _ _ _ f args _ targs _ htag harea hr hrec hlen hargs _ =>
    have hhas : s.areaHas area area r = some true := by
      rw [Interns.areaHas, if_pos rfl]
      exact hr
    cases f with
    | const val => exact harea.elim
    | list =>
      subst htag
      rw [show area = listIndex from harea] at hhas ⊢
      exact hhas
    | struct psc =>
      subst htag
      have hpsc : w.psc ((((s.hcBlock area).termRec r).getD []).headD 0) = psc := by
        rw [hrec]
        exact w.psc_word psc
      have hindex : s.readerIndex (w.arity psc) = some area := by
        rw [Interns.readerIndex]
        rcases harea with ⟨hle, rfl⟩ | ⟨hlt, i, hi, hin, rfl⟩
        · rw [if_neg (by omega)]
        · rw [if_pos hlt, hslots.findSlot_used (hslots.lt_of_eq (hin ▸ hlt)) hin (Nat.zero_le i)
            (by omega)]
          exact if_pos hin
      show (do
        let index ← s.readerIndex (w.arity (w.psc ((((s.hcBlock area).termRec r).getD []).headD 0)))
        s.areaHas index area r) = some true
      rw [hpsc, hindex]
      exact hhas

end Stands

/-! ### Interning of a record -/

section InternRec

variable {heap : Nat → Cell}

/-- The cells that stand for terms are fields of a record. -/
theorem Stands.recArgs (h : Stands w s cs t) (hOK : InternsOK w s) (n : Nat) :
    cs.mapM (recArg w (n + 1) s heap) = some cs := by
  induction h with
  | nil => rfl
  | @const val cs t _ ih =>
    have hval : recArg w (n + 1) s heap (.const val) = some (.const val) := rfl
    rw [List.mapM_cons, hval, ih]
    rfl
  | @record tag area r f args cs targs t htag harea hr hrec hlen hargs _ _ ih =>
    have hinterned : s.isinternstr w (.str tag (.record area r)) = some true :=
      Stands.isinternstr (.record htag harea hr hrec hlen hargs .nil) hOK
    have hval : recArg w (n + 1) s heap (.str tag (.record area r)) =
        some (.str tag (.record area r)) := by
      show (s.isinternstr w (.str tag (.record area r))).bind (fun b =>
        if b then some (Cell.str tag (.record area r)) else none) = _
      rw [hinterned]
      rfl
    rw [List.mapM_cons, hval, ih]
    rfl

theorem header_tag {tag : StrTag} {a : Nat} (h : header heap tag a = some f) :
    f.tag = tag ∧ ∀ val, f ≠ .const val := by
  cases tag with
  | list =>
    obtain rfl := some.inj h
    exact ⟨rfl, fun _ => Root.noConfusion⟩
  | struct =>
    simp only [header] at h
    split at h
    next psc _ =>
      obtain rfl := some.inj h
      exact ⟨rfl, fun _ => Root.noConfusion⟩
    next => exact absurd h.symm (some_ne_none f)

/-- The area of a record: an index for its arity is found or made. -/
theorem InternsOK.areaIndex (hOK : InternsOK w s) (hf : ∀ val, f ≠ .const val) :
    (Fits s.used (rootArities w f) → ∃ area s', s.areaIndex w f = .ok (area, s') ∧
      AreaOf w s' f area ∧ InternsOK w s' ∧ Extends s s' ∧
      s'.used = s.used ∪ (rootArities w f).filter (256 < ·)) ∧
    (¬ Fits s.used (rootArities w f) → ∃ msg, s.areaIndex w f = .error msg) := by
  obtain ⟨k, hslots⟩ := hOK.slots
  have hcard : s.used.card ≤ maxInternBigArities := hslots.card_used ▸ hslots.le
  cases f with
  | const val => exact absurd rfl (hf val)
  | list =>
    refine ⟨fun _ => ⟨listIndex, s, rfl, rfl, hOK, .refl s, ?_⟩, fun hnot => (hnot ?_).elim⟩
    · simp [rootArities]
    · exact ⟨notMem_empty _, by simpa [rootArities] using hcard⟩
  | struct psc =>
    simp only [rootArities]
    by_cases hbig : 255 < w.arity psc
    · have heq : s.areaIndex w (.struct psc) = s.getBigArityIndex (w.arity psc) := if_pos hbig
      obtain ⟨hok, herror⟩ := hslots.getBigArityIndex (w.arity psc)
      rw [heq]
      refine ⟨fun hfits => ?_, herror hbig⟩
      have h256 : 256 < w.arity psc := by
        have hne : 256 ≠ w.arity psc := fun heq => hfits.1 (mem_singleton.mpr heq)
        omega
      obtain ⟨i, s', hindex, hi, hin, hslots', hused, hblock, hkept⟩ := hok ⟨hfits, h256⟩
      have hext : Extends s s' := ⟨fun area r hr => by rw [hblock]; exact ⟨hr, rfl⟩, hkept⟩
      refine ⟨_, s', hindex, Or.inr ⟨h256, i, hi, hin, rfl⟩, ⟨?_, hslots', ?_⟩, hext, ?_⟩
      · rw [hblock]
        exact hOK.areas
      · intro area r hr
        rw [hblock] at hr
        obtain ⟨f, targs, hstands⟩ := hOK.stands area r hr
        exact ⟨f, targs, hstands.mono hext⟩
      · rw [hused, filter_singleton, if_pos h256, union_comm, ← insert_eq]
    · have heq : s.areaIndex w (.struct psc) = .ok (w.arity psc, s) := if_neg hbig
      rw [heq]
      have hfilter : ({w.arity psc} : Finset Nat).filter (256 < ·) = ∅ := by
        rw [filter_singleton, if_neg (by omega)]
      rw [hfilter, union_empty]
      refine ⟨fun _ => ⟨_, s, rfl, Or.inl ⟨by omega, rfl⟩, hOK, .refl s, rfl⟩,
        fun hnot => (hnot ?_).elim⟩
      refine ⟨fun hmem => ?_, ?_⟩
      · have heq := mem_singleton.mp hmem
        omega
      · rwa [hfilter, union_empty]

/-- A record whose fields stand for terms is interned, unless it has no area. -/
theorem InternsOK.internRec {tag : StrTag} {a : Nat} (hOK : InternsOK w s)
    (hheader : header heap tag a = some f) (hargs : w.args heap f a = args)
    (hlen : args.length + f.first = w.reclen f) (hstands : Stands w s args targs) (n : Nat) :
    (Fits s.used (rootArities w f) → ∃ area r s', internRec w (n + 1) s heap tag a =
        some (.ok (.str tag (.record area r), s')) ∧ InternsOK w s' ∧ Extends s s' ∧
      Stands w s' [.str tag (.record area r)] (.app f targs .nil) ∧
      s'.used = s.used ∪ (rootArities w f).filter (256 < ·)) ∧
    (¬ Fits s.used (rootArities w f) →
      ∃ msg, internRec w (n + 1) s heap tag a = some (.error msg)) := by
  obtain ⟨htag, hconst⟩ := header_tag hheader
  obtain ⟨hok, herror⟩ := hOK.areaIndex hconst
  constructor
  · intro hfits
    obtain ⟨area, s1, hindex, harea, hOK1, hext1, hused⟩ := hok hfits
    have hstands1 := hstands.mono hext1
    obtain ⟨h1, r, hinsert, hareas, hspec⟩ :=
      hOK1.areas.insert harea.lt ((f.recCells args).map w.word)
    set s' : Interns := { s1 with hcBlock := Function.update s1.hcBlock area h1 } with hs'
    have hself : s'.hcBlock area = h1 := update_self ..
    have hext : Extends s1 s' := by
      refine ⟨fun area' r' hr' => ?_, fun _ _ => rfl⟩
      rcases eq_or_ne area' area with rfl | hne
      · rw [hself]
        exact ⟨(hspec.interned r').mpr (Or.inl hr'), hspec.kept r' hr'⟩
      · rw [show s'.hcBlock area' = s1.hcBlock area' from update_of_ne hne ..]
        exact ⟨hr', rfl⟩
    have hr : (s'.hcBlock area).Interned r := by
      rw [hself]
      exact (hspec.interned r).mpr (Or.inr rfl)
    have hrec : (s'.hcBlock area).termRec r = some ((f.recCells args).map w.word) := by
      rw [hself]
      exact hspec.contents
    have hnew : Stands w s' [.str tag (.record area r)] (.app f targs .nil) :=
      .record htag (harea.mono hext) hr hrec hlen (hstands1.mono hext) .nil
    obtain ⟨k, hslots⟩ := hOK1.slots
    have hslots' : Slots s' k := ⟨hslots.le, hslots.big, hslots.empty, hslots.inj⟩
    refine ⟨area, r, s', ?_, ⟨hareas, ⟨k, hslots'⟩, fun area' r' hr' => ?_⟩, hext1.trans hext, hnew,
      hused⟩
    · simp only [Interning.internRec, hheader, hindex, hargs, hstands1.recArgs hOK1, hinsert,
        bind_eq_bind, bind_some]
      rfl
    · rcases eq_or_ne area' area with rfl | hne
      · rw [hself] at hr'
        rcases (hspec.interned r').mp hr' with hold | rfl
        · obtain ⟨f', targs', hstands'⟩ := hOK1.stands area' r' hold
          exact ⟨f', targs', hstands'.mono hext⟩
        · exact ⟨f, targs, htag ▸ hnew⟩
      · rw [show s'.hcBlock area' = s1.hcBlock area' from update_of_ne hne ..] at hr'
        obtain ⟨f', targs', hstands'⟩ := hOK1.stands area' r' hr'
        exact ⟨f', targs', hstands'.mono hext⟩
  · intro hfits
    obtain ⟨msg, hindex⟩ := herror hfits
    refine ⟨msg, ?_⟩
    simp only [Interning.internRec, hheader, hindex, bind_eq_bind, bind_some]

end InternRec

end XSBEngine.Interning
