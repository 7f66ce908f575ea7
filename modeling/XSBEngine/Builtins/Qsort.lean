import Mathlib
import XSBEngine.Library.Rearrangements

/-!
# The quicksort of the multi-threaded engine

`qsort0` and `mt_qsort`, `XSB/emu/std_pred_xsb_i.h:602–687`.
-/

namespace XSBEngine.Builtins

open Function Library Option

/-- `INSERT_SORT`. -/
def insertSort : Int := 8

section Code

-- the array has the cells from `lo` to `hi`: each access to another one fails
variable {α : Type} (lo hi : Int) (qsortCmp : α → α → Int)

/-- The cell at an address. -/
def load (a : Int → α) (p : Int) : Option α := if lo ≤ p ∧ p ≤ hi then some (a p) else none

/-- An assignment to the cell at an address. -/
def store (a : Int → α) (p : Int) (x : α) : Option (Int → α) :=
  if lo ≤ p ∧ p ≤ hi then some (update a p x) else none

/-- `QSORT_SWAP`. -/
def qsortSwap (a : Int → α) (p q : Int) : Option (Int → α) := do
  let t ← load lo hi a p
  let u ← load lo hi a q
  let a ← store lo hi a p u
  store lo hi a q t

/-- `QSORT_LESS` of two cells. -/
def qsortLess (a : Int → α) (p q : Int) : Option Bool := do
  let x ← load lo hi a p
  let y ← load lo hi a q
  some (qsortCmp x y < 0)

/-- Two cells are exchanged if the first one has the smaller element. -/
def swapIfLess (a : Int → α) (p q : Int) : Option (Int → α) := do
  let less ← qsortLess lo hi qsortCmp a p q
  if less then qsortSwap lo hi a p q else some a

/-- The exchanges in front of the partition, behind which the element in the middle is between the
ones at the ends. -/
def medianOfThree (a : Int → α) (low mid high : Int) : Option (Int → α) := do
  let a ← swapIfLess lo hi qsortCmp a mid low
  let less ← qsortLess lo hi qsortCmp a high mid
  if less then
    let a ← qsortSwap lo hi a high mid
    swapIfLess lo hi qsortCmp a mid low
  else some a

/-- The scan upwards, for an element that is not below the pivot. -/
def scanUp (a : Int → α) (pivot : α) : Nat → Int → Option Int
  | 0, _ => none
  | n + 1, l => do
    let x ← load lo hi a l
    if qsortCmp x pivot < 0 then scanUp a pivot n (l + 1) else some l

/-- The scan downwards, for an element that is not above the pivot. -/
def scanDown (a : Int → α) (pivot : α) : Nat → Int → Option Int
  | 0, _ => none
  | n + 1, r => do
    let x ← load lo hi a r
    if qsortCmp pivot x < 0 then scanDown a pivot n (r - 1) else some r

/-- The part of the loop behind the scans. -/
def meet (l r : Int) (a : Int → α) : Option (Int × Int × (Int → α)) :=
  if l < r then (qsortSwap lo hi a l r).map fun a => (l + 1, r - 1, a)
  else if l = r then some (l + 1, r - 1, a)
  else some (l, r, a)

/-- The loop that exchanges elements until the scans have met. -/
def partition (pivot : α) : Nat → Int → Int → (Int → α) → Option (Int × Int × (Int → α))
  | 0, _, _, _ => none
  | n + 1, l, r, a => do
    let l ← scanUp lo hi qsortCmp a pivot n l
    let r ← scanDown lo hi qsortCmp a pivot n r
    let (l, r, a) ← meet lo hi l r a
    if l ≤ r then partition pivot n l r a else some (l, r, a)

/-- The search for the smallest element. -/
def findMin (a : Int → α) (high : Int) : Nat → Int → Int → Option Int
  | 0, _, _ => none
  | n + 1, p, min =>
    if p ≤ high then do
      let less ← qsortLess lo hi qsortCmp a p min
      findMin a high n (p + 1) (if less then p else min)
    else some min

/-- The loop that moves elements up to insert one. -/
def insert (newEl : α) : Nat → Int → (Int → α) → Option (Int → α)
  | 0, _, _ => none
  | n + 1, p, a => do
    let x ← load lo hi a (p - 1)
    if qsortCmp newEl x < 0 then
      let a ← store lo hi a p x
      insert newEl n (p - 1) a
    else store lo hi a p newEl

/-- The loop over the elements to insert. -/
def insertAll (high : Int) : Nat → Int → (Int → α) → Option (Int → α)
  | 0, _, _ => none
  | n + 1, r, a =>
    if r ≤ high then do
      let newEl ← load lo hi a r
      let a ← insert lo hi qsortCmp newEl n r a
      insertAll high n (r + 1) a
    else some a

/-- The smallest element becomes the sentinel at the lower end. -/
def setSentinel (a : Int → α) (low min : Int) : Option (Int → α) :=
  if low ≠ min then qsortSwap lo hi a low min else some a

/-- The insertion sort for small lists. -/
def sortSmall (n : Nat) (low high : Int) (a : Int → α) : Option (Int → α) := do
  let min ← findMin lo hi qsortCmp a high n (low + 1) low
  let a ← setSentinel lo hi a low min
  insertAll lo hi qsortCmp high n (low + 2) a

/-- `qsort0`. The number bounds the depth of the recursion and the steps of each loop. -/
def qsort0 : Nat → Int → Int → (Int → α) → Option (Int → α)
  | 0, _, _, _ => none
  | n + 1, low, high, a =>
    if insertSort ≤ high - low then do
      let mid := low + (high - low) / 2
      let a ← medianOfThree lo hi qsortCmp a low mid high
      let pivot ← load lo hi a mid
      let (l, r, a) ← partition lo hi qsortCmp pivot n (low + 1) (high - 1) a
      let a ← qsort0 n low r a
      qsort0 n l high a
    else if low < high then sortSmall lo hi qsortCmp n low high a
    else some a

end Code

section Proofs

variable {α : Type} {lo hi low mid high p q l r s t : Int} {c : α → α → Int} {a a' : Int → α}
  {x pivot newEl : α} {P : α → Prop} {n : Nat} {S : Int → Prop}

/-! ### Cells -/

theorem load_eq (hlo : lo ≤ p) (hhi : p ≤ hi) : load lo hi a p = some (a p) := if_pos ⟨hlo, hhi⟩

theorem store_eq (hlo : lo ≤ p) (hhi : p ≤ hi) :
    store lo hi a p x = some (update a p x) :=
  if_pos ⟨hlo, hhi⟩

theorem qsortSwap_eq (hp : lo ≤ p ∧ p ≤ hi) (hq : lo ≤ q ∧ q ≤ hi) :
    qsortSwap lo hi a p q = some (exchange a p q) := by
  simp only [qsortSwap, load_eq hp.1 hp.2, load_eq hq.1 hq.2, store_eq hp.1 hp.2,
    store_eq hq.1 hq.2, bind_eq_bind, bind_some]
  rfl

theorem qsortLess_eq (hp : lo ≤ p ∧ p ≤ hi) (hq : lo ≤ q ∧ q ≤ hi) :
    qsortLess lo hi c a p q = some (decide (c (a p) (a q) < 0)) := by
  simp only [qsortLess, load_eq hp.1 hp.2, load_eq hq.1 hq.2, bind_eq_bind,
    bind_some]

/-! ### The pivot -/

/-- Behind the exchange the second cell has no larger element. -/
theorem swapIfLess_spec (hc : Compares c P) (hp : lo ≤ p ∧ p ≤ hi) (hq : lo ≤ q ∧ q ≤ hi)
    (hap : P (a p)) (haq : P (a q)) (hSp : S p) (hSq : S q) :
    ∃ a', swapIfLess lo hi c a p q = some a' ∧ Rearranged S a a' ∧ c (a' q) (a' p) ≤ 0 ∧
      (∀ i, i ≠ p → i ≠ q → a' i = a i) ∧
      ∀ R : α → Prop, R (a p) → R (a q) → R (a' p) ∧ R (a' q) := by
  simp only [swapIfLess, qsortLess_eq hp hq, bind_eq_bind, bind_some,
    decide_eq_true_eq]
  split
  next hless =>
    refine ⟨_, qsortSwap_eq hp hq, .exchange a hSp hSq, ?_, fun i => exchange_of_ne, ?_⟩
    · rw [exchange_left, exchange_right]
      exact Int.le_of_lt hless
    · intro R hRp hRq
      rw [exchange_left, exchange_right]
      exact ⟨hRq, hRp⟩
  next hless =>
    refine ⟨a, rfl, .refl S a, ?_, fun _ _ _ => rfl, fun R hRp hRq => ⟨hRp, hRq⟩⟩
    exact (hc.nonneg_iff hap haq).mp (Int.not_lt.mp hless)

/-- The elements from `low` to `high` are those that `Compares` is about. -/
def Within (P : α → Prop) (a : Int → α) (low high : Int) : Prop :=
  ∀ i, low ≤ i ∧ i ≤ high → P (a i)

theorem medianOfThree_spec (hc : Compares c P) (hlo : lo ≤ low) (hhi : high ≤ hi)
    (hlm : low < mid) (hmh : mid < high) (ha : Within P a low high) :
    ∃ a', medianOfThree lo hi c a low mid high = some a' ∧
      Rearranged (fun i => low ≤ i ∧ i ≤ high) a a' ∧
      c (a' low) (a' mid) ≤ 0 ∧ c (a' mid) (a' high) ≤ 0 := by
  have hlow : lo ≤ low ∧ low ≤ hi := by omega
  have hmid : lo ≤ mid ∧ mid ≤ hi := by omega
  have hhigh : lo ≤ high ∧ high ≤ hi := by omega
  have hlow' : low ≤ low ∧ low ≤ high := by omega
  have hmid' : low ≤ mid ∧ mid ≤ high := by omega
  have hhigh' : low ≤ high ∧ high ≤ high := by omega
  obtain ⟨a1, hrun1, hre1, hle1, -, -⟩ := swapIfLess_spec
    (S := fun i => low ≤ i ∧ i ≤ high) hc hmid hlow (ha mid hmid') (ha low hlow') hmid' hlow'
  have ha1 : Within P a1 low high := hre1.forall_range ha
  simp only [medianOfThree, hrun1, qsortLess_eq hhigh hmid, bind_eq_bind, bind_some,
    decide_eq_true_eq]
  split
  next hless =>
    have hre2 : Rearranged (fun i => low ≤ i ∧ i ≤ high) a1 (exchange a1 high mid) :=
      .exchange a1 hhigh' hmid'
    have ha2 : Within P (exchange a1 high mid) low high := hre2.forall_range ha1
    obtain ⟨a3, hrun3, hre3, hle3, hother, hboth⟩ := swapIfLess_spec
      (S := fun i => low ≤ i ∧ i ≤ high) hc hmid hlow (ha2 mid hmid') (ha2 low hlow') hmid' hlow'
    have hhighest : a3 high = a1 mid := by
      rw [hother high (by omega) (by omega), exchange_left]
    refine ⟨a3, ?_, (hre1.trans hre2).trans hre3, hle3, ?_⟩
    · rw [qsortSwap_eq hhigh hmid]
      exact hrun3
    · rw [hhighest]
      apply (hboth (fun x => c x (a1 mid) ≤ 0) _ _).1
      · rw [exchange_right]
        exact Int.le_of_lt hless
      · rw [exchange_of_ne (by omega) (by omega)]
        exact hle1
  next hless =>
    refine ⟨a1, rfl, hre1, hle1, ?_⟩
    exact (hc.nonneg_iff (ha1 high hhigh') (ha1 mid hmid')).mp (Int.not_lt.mp hless)

/-! ### The scans -/

/-- The scan upwards stops at a cell with a sentinel, if not before. -/
theorem scanUp_spec (hlo : lo ≤ l) (hls : l ≤ s) (hhi : s ≤ hi) (hs : ¬ c (a s) pivot < 0) :
    ∃ l', l ≤ l' ∧ l' ≤ s ∧ (∀ i, l ≤ i → i < l' → c (a i) pivot < 0) ∧
      ¬ c (a l') pivot < 0 ∧ ∀ n : Nat, s - l < n → scanUp lo hi c a pivot n l = some l' := by
  obtain ⟨k, hk⟩ : ∃ k : Nat, s - l = k := ⟨(s - l).toNat, by omega⟩
  induction k generalizing l with
  | zero =>
    obtain rfl : l = s := by omega
    refine ⟨l, Int.le_refl l, hls, fun i hi hi' => by omega, hs, fun n hn => ?_⟩
    obtain ⟨n, rfl⟩ := Nat.exists_eq_succ_of_ne_zero (show n ≠ 0 by omega)
    simp only [scanUp, load_eq hlo hhi, bind_eq_bind, bind_some, if_neg hs]
  | succ k ih =>
    by_cases hless : c (a l) pivot < 0
    case pos =>
      obtain ⟨l', hl, hle, hbelow, hstop, hrun⟩ :=
        ih (l := l + 1) (by omega) (by omega) (by omega)
      refine ⟨l', by omega, hle, fun i hi hi' => ?_, hstop, fun n hn => ?_⟩
      · by_cases hil : i = l
        · rw [hil]
          exact hless
        · exact hbelow i (by omega) hi'
      · obtain ⟨n, rfl⟩ := Nat.exists_eq_succ_of_ne_zero (show n ≠ 0 by omega)
        simp only [scanUp, load_eq hlo (show l ≤ hi by omega), bind_eq_bind,
          bind_some, if_pos hless]
        exact hrun n (by omega)
    case neg =>
      refine ⟨l, Int.le_refl l, hls, fun i hi hi' => by omega, hless, fun n hn => ?_⟩
      obtain ⟨n, rfl⟩ := Nat.exists_eq_succ_of_ne_zero (show n ≠ 0 by omega)
      simp only [scanUp, load_eq hlo (show l ≤ hi by omega), bind_eq_bind,
        bind_some, if_neg hless]

/-- The scan downwards. -/
theorem scanDown_spec (hhi : r ≤ hi) (hsr : s ≤ r) (hlo : lo ≤ s) (hs : ¬ c pivot (a s) < 0) :
    ∃ r', s ≤ r' ∧ r' ≤ r ∧ (∀ i, r' < i → i ≤ r → c pivot (a i) < 0) ∧
      ¬ c pivot (a r') < 0 ∧ ∀ n : Nat, r - s < n → scanDown lo hi c a pivot n r = some r' := by
  obtain ⟨k, hk⟩ : ∃ k : Nat, r - s = k := ⟨(r - s).toNat, by omega⟩
  induction k generalizing r with
  | zero =>
    obtain rfl : r = s := by omega
    refine ⟨r, hsr, Int.le_refl r, fun i hi hi' => by omega, hs, fun n hn => ?_⟩
    obtain ⟨n, rfl⟩ := Nat.exists_eq_succ_of_ne_zero (show n ≠ 0 by omega)
    simp only [scanDown, load_eq hlo hhi, bind_eq_bind, bind_some, if_neg hs]
  | succ k ih =>
    by_cases hless : c pivot (a r) < 0
    case pos =>
      obtain ⟨r', hle, hr, habove, hstop, hrun⟩ :=
        ih (r := r - 1) (by omega) (by omega) (by omega)
      refine ⟨r', hle, by omega, fun i hi hi' => ?_, hstop, fun n hn => ?_⟩
      · by_cases hir : i = r
        · rw [hir]
          exact hless
        · exact habove i hi (by omega)
      · obtain ⟨n, rfl⟩ := Nat.exists_eq_succ_of_ne_zero (show n ≠ 0 by omega)
        simp only [scanDown, load_eq (show lo ≤ r by omega) hhi, bind_eq_bind,
          bind_some, if_pos hless]
        exact hrun n (by omega)
    case neg =>
      refine ⟨r, hsr, Int.le_refl r, fun i hi hi' => by omega, hless, fun n hn => ?_⟩
      obtain ⟨n, rfl⟩ := Nat.exists_eq_succ_of_ne_zero (show n ≠ 0 by omega)
      simp only [scanDown, load_eq (show lo ≤ r by omega) hhi, bind_eq_bind,
        bind_some, if_neg hless]

/-! ### The partition -/

/-- Between the scans: what is left of `l` is not above the pivot, what is right of `r` not below
it, and there are such cells at both ends, where the scans stop at the latest. -/
structure Split (c : α → α → Int) (pivot : α) (low high l r : Int) (a : Int → α) : Prop where
  low_lt : low < l
  lt_high : r < high
  below : ∀ i, low ≤ i → i < l → c (a i) pivot ≤ 0
  above : ∀ i, r < i → i ≤ high → c pivot (a i) ≤ 0

/-- One turn of the loop. -/
theorem Split.turn (hc : Compares c P) (hlo : lo ≤ low) (hhi : high ≤ hi)
    (ha : Within P a low high) (hpivot : P pivot) (h : Split c pivot low high l r a)
    (hlr : l ≤ r + 1) :
    ∃ l1 r1 l2 r2 a2, (∀ n : Nat, r - l + 2 ≤ n → scanUp lo hi c a pivot n l = some l1 ∧
        scanDown lo hi c a pivot n r = some r1) ∧
      meet lo hi l1 r1 a = some (l2, r2, a2) ∧
      Rearranged (fun i => low ≤ i ∧ i ≤ high) a a2 ∧ Split c pivot low high l2 r2 a2 ∧
      (l2 ≤ r2 → r2 - l2 + 2 ≤ r - l) := by
  have hlow := h.low_lt
  have hhigh := h.lt_high
  have hP : ∀ i, low ≤ i → i ≤ high → P (a i) := fun i hi hi' => ha i ⟨hi, hi'⟩
  have hup : ¬ c (a (r + 1)) pivot < 0 := by
    have habove := h.above (r + 1) (by omega) (by omega)
    have hsign := (hc.nonneg_iff (hP (r + 1) (by omega) (by omega)) hpivot).mpr habove
    omega
  have hdown : ¬ c pivot (a (l - 1)) < 0 := by
    have hbelow := h.below (l - 1) (by omega) (by omega)
    have hsign := (hc.nonneg_iff hpivot (hP (l - 1) (by omega) (by omega))).mpr hbelow
    omega
  obtain ⟨l1, hll1, hl1, hbelow, hstop, hrun1⟩ :=
    scanUp_spec (show lo ≤ l by omega) hlr (show r + 1 ≤ hi by omega) hup
  obtain ⟨r1, hr1, hrr1, habove, hstop', hrun2⟩ :=
    scanDown_spec (show r ≤ hi by omega) (show l - 1 ≤ r by omega) (show lo ≤ l - 1 by omega)
      hdown
  have hbelow1 : ∀ i, low ≤ i → i < l1 → c (a i) pivot ≤ 0 := by
    intro i hi hi'
    by_cases hil : i < l
    · exact h.below i hi hil
    · exact Int.le_of_lt (hbelow i (by omega) hi')
  have habove1 : ∀ i, r1 < i → i ≤ high → c pivot (a i) ≤ 0 := by
    intro i hi hi'
    by_cases hir : r < i
    · exact h.above i hir hi'
    · exact Int.le_of_lt (habove i hi (by omega))
  have hscans : ∀ n : Nat, r - l + 2 ≤ n → scanUp lo hi c a pivot n l = some l1 ∧
      scanDown lo hi c a pivot n r = some r1 :=
    fun n hn => ⟨hrun1 n (by omega), hrun2 n (by omega)⟩
  -- the elements at which the scans stop
  have hleft : r1 < low ∨ c (a r1) pivot ≤ 0 := by
    by_cases hr : r1 < low
    · exact Or.inl hr
    · exact Or.inr ((hc.nonneg_iff hpivot (hP r1 (by omega) (by omega))).mp (by omega))
  have hright : high < l1 ∨ c pivot (a l1) ≤ 0 := by
    by_cases hl : high < l1
    · exact Or.inl hl
    · exact Or.inr ((hc.nonneg_iff (hP l1 (by omega) (by omega)) hpivot).mp (by omega))
  rcases Int.lt_trichotomy l1 r1 with hlt | heq | hgt
  · refine ⟨l1, r1, l1 + 1, r1 - 1, exchange a l1 r1, hscans, ?_,
      .exchange a (by omega) (by omega), ⟨by omega, by omega, ?_, ?_⟩, by omega⟩
    · rw [meet, if_pos hlt, qsortSwap_eq (by omega) (by omega)]
      rfl
    · intro i hi hi'
      by_cases hil : i = l1
      · rw [hil, exchange_left]
        exact hleft.resolve_left (by omega)
      · rw [exchange_of_ne hil (by omega)]
        exact hbelow1 i hi (by omega)
    · intro i hi hi'
      by_cases hir : i = r1
      · rw [hir, exchange_right]
        exact hright.resolve_left (by omega)
      · rw [exchange_of_ne (by omega) hir]
        exact habove1 i (by omega) hi'
  · subst heq
    refine ⟨l1, l1, l1 + 1, l1 - 1, a, hscans, ?_, .refl _ a, ⟨by omega, by omega, ?_, ?_⟩,
      by omega⟩
    · rw [meet, if_neg (Int.lt_irrefl l1), if_pos rfl]
    · intro i hi hi'
      by_cases hil : i = l1
      · rw [hil]
        exact hleft.resolve_left (by omega)
      · exact hbelow1 i hi (by omega)
    · intro i hi hi'
      by_cases hil : i = l1
      · rw [hil]
        exact hright.resolve_left (by omega)
      · exact habove1 i (by omega) hi'
  · refine ⟨l1, r1, l1, r1, a, hscans, ?_, .refl _ a, ⟨by omega, by omega, hbelow1, habove1⟩,
      by omega⟩
    rw [meet, if_neg (by omega), if_neg (by omega)]

/-- The whole loop. -/
theorem Split.partition (hc : Compares c P) (hlo : lo ≤ low) (hhi : high ≤ hi)
    (ha : Within P a low high) (hpivot : P pivot) (h : Split c pivot low high l r a)
    (hlr : l ≤ r + 1) :
    ∃ l' r' a', (∀ n : Nat, r - l + 3 ≤ n →
        Builtins.partition lo hi c pivot n l r a = some (l', r', a')) ∧
      Rearranged (fun i => low ≤ i ∧ i ≤ high) a a' ∧ Split c pivot low high l' r' a' ∧
      r' < l' := by
  obtain ⟨k, hk⟩ : ∃ k : Nat, r - l + 1 = k := ⟨(r - l + 1).toNat, by omega⟩
  induction k using Nat.strong_induction_on generalizing l r a with
  | _ k ih =>
    obtain ⟨l1, r1, l2, r2, a2, hscans, hmeet, hre, h2, hsize⟩ := h.turn hc hlo hhi ha hpivot hlr
    have hrun : ∀ n : Nat, r - l + 2 ≤ n → Builtins.partition lo hi c pivot (n + 1) l r a =
        if l2 ≤ r2 then Builtins.partition lo hi c pivot n l2 r2 a2 else some (l2, r2, a2) := by
      intro n hn
      simp only [Builtins.partition, (hscans n hn).1, (hscans n hn).2, hmeet, bind_eq_bind,
        bind_some]
    by_cases hle : l2 ≤ r2
    case pos =>
      have hsmaller := hsize hle
      obtain ⟨l', r', a', hrun', hre', h', hend⟩ := ih (r2 - l2 + 1).toNat (by omega)
        (hre.forall_range ha) h2 (by omega) (by omega)
      refine ⟨l', r', a', fun n hn => ?_, hre.trans hre', h', hend⟩
      obtain ⟨n, rfl⟩ := Nat.exists_eq_succ_of_ne_zero (show n ≠ 0 by omega)
      rw [hrun n (by omega), if_pos hle]
      exact hrun' n (by omega)
    case neg =>
      refine ⟨l2, r2, a2, fun n hn => ?_, hre, h2, by omega⟩
      obtain ⟨n, rfl⟩ := Nat.exists_eq_succ_of_ne_zero (show n ≠ 0 by omega)
      rw [hrun n (by omega), if_neg hle]

/-! ### Insertion -/

theorem findMin_spec (hc : Compares c P) (hlo : lo ≤ low) (hhi : high ≤ hi)
    (ha : Within P a low high) (hp : low < p) (hm : low ≤ q) (hmp : q < p) (hle : p ≤ high + 1)
    (hmin : ∀ i, low ≤ i → i < p → c (a q) (a i) ≤ 0) :
    ∃ m, low ≤ m ∧ m ≤ high ∧ (∀ i, low ≤ i → i ≤ high → c (a m) (a i) ≤ 0) ∧
      ∀ n : Nat, high - p + 2 ≤ n → findMin lo hi c a high n p q = some m := by
  obtain ⟨k, hk⟩ : ∃ k : Nat, high + 1 - p = k := ⟨(high + 1 - p).toNat, by omega⟩
  induction k generalizing p q with
  | zero =>
    refine ⟨q, hm, by omega, fun i hi hi' => hmin i hi (by omega), fun n hn => ?_⟩
    obtain ⟨n, rfl⟩ := Nat.exists_eq_succ_of_ne_zero (show n ≠ 0 by omega)
    rw [findMin, if_neg (by omega)]
  | succ k ih =>
    have hPp : P (a p) := ha p (by omega)
    have hPq : P (a q) := ha q (by omega)
    have hnew : ∀ i, low ≤ i → i < p + 1 →
        c (a (if c (a p) (a q) < 0 then p else q)) (a i) ≤ 0 := by
      intro i hi hi'
      have hPi : P (a i) := ha i (by omega)
      split
      next hless =>
        by_cases hip : i = p
        · have hself := hc.swap hPp hPp
          rw [hip]
          omega
        · exact hc.trans hPp hPq hPi (Int.le_of_lt hless) (hmin i hi (by omega))
      next hless =>
        by_cases hip : i = p
        · rw [hip]
          exact (hc.nonneg_iff hPp hPq).mp (by omega)
        · exact hmin i hi (by omega)
    have hbounds : low ≤ (if c (a p) (a q) < 0 then p else q) ∧
        (if c (a p) (a q) < 0 then p else q) < p + 1 := by
      split <;> omega
    obtain ⟨m, hlow, hhigh, hall, hrun⟩ :=
      ih (by omega) hbounds.1 hbounds.2 (by omega) hnew (by omega)
    refine ⟨m, hlow, hhigh, hall, fun n hn => ?_⟩
    obtain ⟨n, rfl⟩ := Nat.exists_eq_succ_of_ne_zero (show n ≠ 0 by omega)
    rw [findMin, if_pos (by omega), qsortLess_eq (by omega) (by omega)]
    simp only [bind_eq_bind, bind_some, decide_eq_true_eq]
    exact hrun n (by omega)

/-- An element is moved down to its place, where the smallest one stops it at the latest. -/
theorem insert_spec {b : Int → α} (hc : Compares c P) (hlo : lo ≤ low) (hhi : r ≤ hi)
    (hb : update a p newEl = b) (hP : Within P b low r) (hlp : low < p) (hpr : p ≤ r)
    (hs : ¬ c newEl (b low) < 0)
    (hsorted : ∀ i j, low ≤ i → i ≤ j → j ≤ r → i ≠ p → j ≠ p → c (b i) (b j) ≤ 0)
    (habove : ∀ j, p < j → j ≤ r → c newEl (b j) ≤ 0) :
    ∃ b', (∀ n : Nat, p - low ≤ n → insert lo hi c newEl n p a = some b') ∧
      Rearranged (fun i => low ≤ i ∧ i ≤ r) b b' ∧ Ascends c b' low r ∧ b' low = b low := by
  obtain ⟨k, hk⟩ : ∃ k : Nat, p - low = k := ⟨(p - low).toNat, by omega⟩
  induction k generalizing p a b with
  | zero => omega
  | succ k ih =>
    have hnew : b p = newEl := by rw [← hb, update_self]
    have hother : ∀ i, i ≠ p → b i = a i := by
      intro i hi
      rw [← hb, update_of_ne hi]
    have hprev := hother (p - 1) (by omega)
    have hPnew : P newEl := hnew ▸ hP p (by omega)
    have hPprev : P (b (p - 1)) := hP (p - 1) (by omega)
    have hload : load lo hi a (p - 1) = some (b (p - 1)) := by
      rw [load_eq (by omega) (by omega), hprev]
    have hrun : ∀ n, insert lo hi c newEl (n + 1) p a =
        if c newEl (b (p - 1)) < 0 then
          insert lo hi c newEl n (p - 1) (update a p (b (p - 1)))
        else some b := by
      intro n
      simp only [insert, hload, store_eq (show lo ≤ p by omega) (show p ≤ hi by omega), hb,
        bind_eq_bind, bind_some]
    by_cases hless : c newEl (b (p - 1)) < 0
    case pos =>
      have hlow : low ≠ p - 1 := by
        rintro rfl
        exact hs hless
      have hb' : update (update a p (b (p - 1))) (p - 1) newEl =
          exchange b (p - 1) p := by
        funext i
        by_cases hi : i = p - 1
        · rw [hi, update_self, exchange_left, hnew]
        rw [update_of_ne hi]
        by_cases hip : i = p
        · rw [hip, update_self, exchange_right]
        · rw [update_of_ne hip, exchange_of_ne hi hip, hother i hip]
      have hre : Rearranged (fun i => low ≤ i ∧ i ≤ r) b (exchange b (p - 1) p) :=
        .exchange b (by omega) (by omega)
      have hlow' : exchange b (p - 1) p low = b low := exchange_of_ne hlow (by omega)
      -- where the elements but the new one have been
      have hwas : ∀ i, low ≤ i → i ≤ r → i ≠ p - 1 → ∃ j, low ≤ j ∧ j ≤ r ∧ j ≠ p ∧
          (j = i ∧ i ≠ p ∨ j = p - 1 ∧ i = p) ∧ exchange b (p - 1) p i = b j := by
        intro i hi hi' hne
        by_cases hip : i = p
        · exact ⟨p - 1, by omega, by omega, by omega,
            Or.inr ⟨rfl, hip⟩, by rw [hip, exchange_right]⟩
        · exact ⟨i, hi, hi', hip, Or.inl ⟨rfl, hip⟩, exchange_of_ne hne hip⟩
      obtain ⟨b', hrun', hre', hasc, hlow''⟩ := ih hb' (hre.forall_range hP) (by omega) (by omega)
        (by rw [hlow']; exact hs)
        (by
          intro i j hi hij hj hip hjp
          obtain ⟨i', hi1, hi2, hi3, hi4, heq⟩ := hwas i hi (by omega) hip
          obtain ⟨j', hj1, hj2, hj3, hj4, heq'⟩ := hwas j (by omega) hj hjp
          rw [heq, heq']
          exact hsorted i' j' hi1 (by omega) hj2 hi3 hj3)
        (by
          intro j hj hj'
          by_cases hjp : j = p
          · rw [hjp, exchange_right]
            exact Int.le_of_lt hless
          · rw [exchange_of_ne (by omega) hjp]
            exact habove j (by omega) hj')
        (by omega)
      refine ⟨b', fun n hn => ?_, hre.trans hre', hasc, hlow''.trans hlow'⟩
      obtain ⟨n, rfl⟩ := Nat.exists_eq_succ_of_ne_zero (show n ≠ 0 by omega)
      rw [hrun, if_pos hless]
      exact hrun' n (by omega)
    case neg =>
      have hle : c (b (p - 1)) newEl ≤ 0 := (hc.nonneg_iff hPnew hPprev).mp (by omega)
      refine ⟨b, fun n hn => ?_, .refl _ b, ?_, rfl⟩
      · obtain ⟨n, rfl⟩ := Nat.exists_eq_succ_of_ne_zero (show n ≠ 0 by omega)
        rw [hrun, if_neg hless]
      · intro i j hi hij hj
        by_cases hip : i = p
        · by_cases hjp : j = p
          · have hself := hc.swap hPnew hPnew
            rw [hip, hjp, hnew]
            omega
          · rw [hip, hnew]
            exact habove j (by omega) hj
        · by_cases hjp : j = p
          · rw [hjp, hnew]
            apply hc.trans (hP i (by omega)) hPprev hPnew _ hle
            exact hsorted i (p - 1) hi (by omega) (by omega) hip (by omega)
          · exact hsorted i j hi hij hj hip hjp

theorem insertAll_spec (hc : Compares c P) (hlo : lo ≤ low) (hhi : high ≤ hi)
    (ha : Within P a low high) (hmin : ∀ i, low ≤ i ∧ i ≤ high → c (a low) (a i) ≤ 0)
    (hlr : low < r) (hrh : r ≤ high + 1) (hasc : Ascends c a low (r - 1)) :
    ∃ a', (∀ n : Nat, 2 * (high - low) + 2 ≤ n + (r - low) →
        insertAll lo hi c high n r a = some a') ∧
      Rearranged (fun i => low ≤ i ∧ i ≤ high) a a' ∧ Ascends c a' low high := by
  obtain ⟨k, hk⟩ : ∃ k : Nat, high + 1 - r = k := ⟨(high + 1 - r).toNat, by omega⟩
  induction k generalizing r a with
  | zero =>
    obtain rfl : high = r - 1 := by omega
    refine ⟨a, fun n hn => ?_, .refl _ a, hasc⟩
    obtain ⟨n, rfl⟩ := Nat.exists_eq_succ_of_ne_zero (show n ≠ 0 by omega)
    rw [insertAll, if_neg (by omega)]
  | succ k ih =>
    have hsame : update a r (a r) = a := update_eq_self r a
    have hle := hmin r (by omega)
    have hPlow : P (a low) := ha low (by omega)
    have hPr : P (a r) := ha r (by omega)
    have hsentinel : ¬ c (a r) (a low) < 0 := by
      have hsign := (hc.nonneg_iff hPr hPlow).mpr hle
      omega
    obtain ⟨b, hrun, hre, hasc', hlow⟩ := insert_spec (p := r) (r := r) hc hlo
      (show r ≤ hi by omega) hsame (fun i hi => ha i (by omega)) hlr (Int.le_refl r) hsentinel
      (fun i j hi hij hj hir hjr => hasc i j hi hij (by omega)) (fun j hj hj' => by omega)
    have hre' : Rearranged (fun i => low ≤ i ∧ i ≤ high) a b := hre.mono fun i hi => by omega
    have hmin' : ∀ i, low ≤ i ∧ i ≤ high → c (b low) (b i) ≤ 0 := by
      rw [hlow]
      exact hre'.forall_range (P := fun x => c (a low) x ≤ 0) hmin
    obtain ⟨a', hrun', hre'', hasc''⟩ := ih (hre'.forall_range ha) hmin' (r := r + 1) (by omega)
      (by omega) (by rw [show r + 1 - 1 = r by omega]; exact hasc') (by omega)
    refine ⟨a', fun n hn => ?_, hre'.trans hre'', hasc''⟩
    obtain ⟨n, rfl⟩ := Nat.exists_eq_succ_of_ne_zero (show n ≠ 0 by omega)
    rw [insertAll, if_pos (by omega), load_eq (by omega) (by omega)]
    simp only [bind_eq_bind, bind_some, hrun n (by omega)]
    exact hrun' n (by omega)

theorem sortSmall_spec (hc : Compares c P) (hlo : lo ≤ low) (hhi : high ≤ hi) (hlh : low < high)
    (ha : Within P a low high) :
    ∃ a', (∀ n : Nat, 2 * (high - low) + 2 ≤ n → sortSmall lo hi c n low high a = some a') ∧
      Rearranged (fun i => low ≤ i ∧ i ≤ high) a a' ∧ Ascends c a' low high := by
  have hself : ∀ i, low ≤ i → i < low + 1 → c (a low) (a i) ≤ 0 := by
    intro i hi hi'
    obtain rfl : i = low := by omega
    have hsign := hc.swap (ha i (by omega)) (ha i (by omega))
    omega
  obtain ⟨m, hlm, hmh, hmin, hfind⟩ := findMin_spec (p := low + 1) (q := low) hc hlo hhi ha
    (by omega) (Int.le_refl low) (by omega) (by omega) hself
  have hswap : ∃ a1, setSentinel lo hi a low m = some a1 ∧
      Rearranged (fun i => low ≤ i ∧ i ≤ high) a a1 ∧ a1 low = a m := by
    unfold setSentinel
    split
    next =>
      exact ⟨_, qsortSwap_eq (by omega) (by omega), .exchange a (by omega) (by omega),
        exchange_left⟩
    next heq =>
      obtain rfl : low = m := by omega
      exact ⟨a, rfl, .refl _ a, rfl⟩
  obtain ⟨a1, hrun1, hre1, hlow⟩ := hswap
  have ha1 : Within P a1 low high := hre1.forall_range ha
  have hmin1 : ∀ i, low ≤ i ∧ i ≤ high → c (a1 low) (a1 i) ≤ 0 := by
    rw [hlow]
    exact hre1.forall_range (P := fun x => c (a m) x ≤ 0) fun i hi => hmin i hi.1 hi.2
  have hasc : Ascends c a1 low (low + 2 - 1) := by
    intro i j hi hij hj
    by_cases hil : i = low
    · rw [hil]
      exact hmin1 j (by omega)
    · obtain rfl : i = j := by omega
      have hsign := hc.swap (ha1 i (by omega)) (ha1 i (by omega))
      omega
  obtain ⟨a', hrun, hre, hasc'⟩ := insertAll_spec (r := low + 2) hc hlo hhi ha1 hmin1 (by omega)
    (by omega) hasc
  refine ⟨a', fun n hn => ?_, hre1.trans hre, hasc'⟩
  simp only [sortSmall, hfind n (by omega), hrun1, bind_eq_bind, bind_some]
  exact hrun n (by omega)

/-! ### The whole sort -/

/-- `qsort0` ends, gets by with the cells from `low` to `high` and arranges their elements in
ascending order. -/
theorem qsort0_spec (hc : Compares c P) (hlo : lo ≤ low) (hhi : high ≤ hi)
    (ha : Within P a low high) :
    ∃ a', (∀ n : Nat, (high - low).toNat + 17 ≤ n → qsort0 lo hi c n low high a = some a') ∧
      Rearranged (fun i => low ≤ i ∧ i ≤ high) a a' ∧ Ascends c a' low high := by
  obtain ⟨k, hk⟩ : ∃ k, (high - low).toNat = k := ⟨_, rfl⟩
  induction k using Nat.strong_induction_on generalizing low high a with
  | _ k ih =>
    have hrun : ∀ n : Nat, (high - low).toNat + 17 ≤ n → ∃ m, n = m + 1 ∧
        (high - low).toNat + 16 ≤ m := fun n hn => ⟨n - 1, by omega, by omega⟩
    by_cases hlarge : 8 ≤ high - low
    case pos =>
      have hmid : low < low + (high - low) / 2 ∧ low + (high - low) / 2 < high := by omega
      obtain ⟨a1, hmedian, hre1, hlm, hmh⟩ :=
        medianOfThree_spec hc hlo hhi hmid.1 hmid.2 ha
      have ha1 : Within P a1 low high := hre1.forall_range ha
      have hPpivot : P (a1 (low + (high - low) / 2)) := ha1 _ (by omega)
      have hstart : Split c (a1 (low + (high - low) / 2)) low high (low + 1) (high - 1) a1 := by
        refine ⟨by omega, by omega, fun i hi hi' => ?_, fun i hi hi' => ?_⟩
        · obtain rfl : i = low := by omega
          exact hlm
        · obtain rfl : i = high := by omega
          exact hmh
      obtain ⟨l, r, a2, hpart, hre2, hsplit, hrl⟩ :=
        hstart.partition hc hlo hhi ha1 hPpivot (by omega)
      have hll := hsplit.low_lt
      have hrh := hsplit.lt_high
      have ha2 : Within P a2 low high := hre2.forall_range ha1
      have hPleft : Within P a2 low r := fun i hi => ha2 i (by omega)
      obtain ⟨a3, hrun3, hre3, hasc3⟩ := ih (r - low).toNat (by omega) hlo (by omega) hPleft rfl
      have hre3' : Rearranged (fun i => low ≤ i ∧ i ≤ high) a2 a3 :=
        hre3.mono fun i hi => by omega
      have ha3 : Within P a3 low high := hre3'.forall_range ha2
      have hPright : Within P a3 l high := fun i hi => ha3 i (by omega)
      obtain ⟨a4, hrun4, hre4, hasc4⟩ := ih (high - l).toNat (by omega) (by omega) hhi hPright rfl
      have hre4' : Rearranged (fun i => low ≤ i ∧ i ≤ high) a3 a4 :=
        hre4.mono fun i hi => by omega
      have ha4 : Within P a4 low high := hre4'.forall_range ha3
      -- the ranges that are sorted stay on their sides of the pivot
      have hbelow3 : ∀ i, low ≤ i → i < l → c (a3 i) (a1 (low + (high - low) / 2)) ≤ 0 := by
        intro i hi hi'
        by_cases hir : i ≤ r
        · exact hre3.forall_range (P := fun x => c x (a1 (low + (high - low) / 2)) ≤ 0)
            (fun j hj => hsplit.below j hj.1 (by omega)) i ⟨hi, hir⟩
        · rw [hre3.outside (by omega)]
          exact hsplit.below i hi hi'
      have habove3 : ∀ i, r < i → i ≤ high → c (a1 (low + (high - low) / 2)) (a3 i) ≤ 0 := by
        intro i hi hi'
        rw [hre3.outside (by omega)]
        exact hsplit.above i hi hi'
      have hbelow4 : ∀ i, low ≤ i → i < l → c (a4 i) (a1 (low + (high - low) / 2)) ≤ 0 := by
        intro i hi hi'
        rw [hre4.outside (by omega)]
        exact hbelow3 i hi hi'
      have habove4 : ∀ i, r < i → i ≤ high → c (a1 (low + (high - low) / 2)) (a4 i) ≤ 0 := by
        intro i hi hi'
        by_cases hil : l ≤ i
        · exact hre4.forall_range (P := fun x => c (a1 (low + (high - low) / 2)) x ≤ 0)
            (fun j hj => habove3 j (by omega) hj.2) i ⟨hil, hi'⟩
        · rw [hre4.outside (by omega)]
          exact habove3 i hi hi'
      refine ⟨a4, fun n hn => ?_, ((hre1.trans hre2).trans hre3').trans hre4', ?_⟩
      · obtain ⟨m, rfl, hm⟩ := hrun n hn
        simp only [qsort0, insertSort, if_pos hlarge, hmedian, load_eq (a := a1)
          (show lo ≤ low + (high - low) / 2 by omega)
          (show low + (high - low) / 2 ≤ hi by omega), hpart m (by omega), hrun3 m (by omega),
          hrun4 m (by omega), bind_eq_bind, bind_some]
      · apply Ascends.join hc hPpivot (fun i hi hi' => ha4 i ⟨hi, hi'⟩) _ hasc4 hbelow4 habove4
        apply hasc3.congr
        intro i hi hi'
        exact hre4.outside (by omega)
    case neg =>
      by_cases hlh : low < high
      case pos =>
        obtain ⟨a', hsmall, hre, hasc⟩ := sortSmall_spec hc hlo hhi hlh ha
        refine ⟨a', fun n hn => ?_, hre, hasc⟩
        obtain ⟨m, rfl, hm⟩ := hrun n hn
        rw [qsort0, insertSort, if_neg hlarge, if_pos hlh]
        exact hsmall m (by omega)
      case neg =>
        refine ⟨a, fun n hn => ?_, .refl _ a, ?_⟩
        · obtain ⟨m, rfl, hm⟩ := hrun n hn
          rw [qsort0, insertSort, if_neg hlarge, if_neg hlh]
        · exact Ascends.short hc (fun i hi hi' => ha i ⟨hi, hi'⟩) (by omega)

end Proofs

end XSBEngine.Builtins
