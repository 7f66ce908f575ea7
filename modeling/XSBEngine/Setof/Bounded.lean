import Mathlib
import XSBEngine.Library.Neighbours

/-!
# Solutions of `bounded_bagof/4`

`bounded_bagof`, with `parade`, `ppick` and `pdecide`, `XSB/syslib/setof.P:87–92, 228–273`, for
ground keys, which are told apart by the standard order. On them `variant/2` is identity.
-/

namespace XSBEngine.Setof.Bounded

open List

variable {κ τ : Type} [LinearOrder κ]

/-- `parade`: the templates that are joined to `Key`, and the other pairs. -/
def parade : List (κ × τ) → κ → List τ × List (κ × τ)
  | [], _ => ([], [])
  | (k, x) :: l1, key =>
    if k = key then (x :: (parade l1 key).1, (parade l1 key).2) else ([], (k, x) :: l1)

theorem parade_length_le (l : List (κ × τ)) (key : κ) : (parade l key).2.length ≤ l.length := by
  induction l with
  | nil => exact Nat.le_refl 0
  | cons p l1 ih =>
    rw [parade]
    split
    · exact Nat.le_succ_of_le ih
    · exact Nat.le_refl _

mutual

/-- `ppick`, with all its solutions: the key and the bag. -/
def ppick : List (κ × τ) → List κ → List (κ × List τ)
  | [], _ => []
  | (k, x) :: bags, allKs =>
    pdecide (parade bags k).2 (x :: (parade bags k).1) k allKs
termination_by bags allKs => (bags.length + allKs.length, 0)
decreasing_by
  have hle := parade_length_le bags k
  exact Prod.Lex.left _ _ (by simp only [length_cons]; omega)

/-- `pdecide`, with all its solutions. -/
def pdecide (bags : List (κ × τ)) (bag0 : List τ) (key1 : κ) : List κ → List (κ × List τ)
  | [] => []
  | key0 :: allKeys =>
    if key0 = key1 then
      (key1, bag0) :: if bags.isEmpty then pdecide [] [] key1 allKeys else ppick bags allKeys
    else if key0 < key1 ∨ bags.isEmpty then (key0, []) :: pdecide bags bag0 key1 allKeys
    else ppick bags (key0 :: allKeys)
termination_by allKeys => (bags.length + allKeys.length, 1)
decreasing_by
  · exact Prod.Lex.left _ _ (by simp only [length_cons, length_nil]; omega)
  · exact Prod.Lex.left _ _ (by simp only [length_cons]; omega)
  · exact Prod.Lex.left _ _ (by simp only [length_cons]; omega)
  · exact Prod.Lex.right _ Nat.one_pos

end

/-- `diff_varsets`: the free variables are numbered in their order, and the others are sorted. -/
def diffVarsets (aVars bVars : List Nat) : Bool := !(aVars.all (· ∈ bVars) && bVars.all (· ∈ aVars))

/-- `bounded_bagof`, with all its solutions. There is no key where the free variables stay unbound.
The only error is that of the sets of variables. -/
def boundedBagof (keysort : List (κ × τ) → List (κ × τ)) (sort : List κ → List κ)
    (varList rVarList : List Nat) (answers : List (κ × τ)) (range : List κ) :
    Except Unit (List (Option κ × List τ)) :=
  if diffVarsets varList rVarList then .error ()
  else if varList = [] then .ok [(none, answers.map Prod.snd)]
  -- bag is empty for all keys
  else if answers = [] then .ok [(none, [])]
  else if range = [] then .ok []
  else .ok ((ppick (keysort answers) (sort range)).map fun s => (some s.1, s.2))

/-- `keysort/2`, by the standard order of the keys, and it is stable. -/
structure IsKeysort (keysort : List (κ × τ) → List (κ × τ)) : Prop where
  sorted : ∀ l, (keysort l).Pairwise fun p q => p.1 ≤ q.1
  stable : ∀ l k, (keysort l).filter (fun p => p.1 = k) = l.filter fun p => p.1 = k

/-- `sort/2`, which drops what is there already. -/
structure IsSort (sort : List κ → List κ) : Prop where
  sorted : ∀ l, (sort l).Pairwise (· < ·)
  mem : ∀ l k, k ∈ sort l ↔ k ∈ l

/-- The templates of a key. -/
def templates (l : List (κ × τ)) (k : κ) : List τ := (l.filter fun p => p.1 = k).map Prod.snd

/-- Each key of the range once, in the standard order, with the templates found for it. -/
def Enumerates (answers : List (κ × τ)) (range : List κ)
    (solutions : List (Option κ × List τ)) : Prop :=
  ∃ keys : List κ, keys.Pairwise (· < ·) ∧ (∀ k, k ∈ keys ↔ k ∈ range) ∧
    solutions = keys.map fun k => (some k, templates answers k)

variable {bags answers l : List (κ × τ)} {allKs range : List κ} {k key : κ} {bag0 : List τ}

theorem templates_of_lt (h : ∀ p ∈ l, k < p.1) : templates l k = [] := by
  rw [templates, filter_eq_nil_iff.mpr, map_nil]
  intro p hp
  simpa using (h p hp).ne'

/-- The pairs of the least key come first. -/
theorem parade_eq (hsorted : l.Pairwise fun p q => p.1 ≤ q.1) (hle : ∀ p ∈ l, key ≤ p.1) :
    (parade l key).1 = templates l key ∧ (∀ p ∈ (parade l key).2, key < p.1) ∧
      (parade l key).2.Pairwise (fun p q => p.1 ≤ q.1) ∧
      ∀ k, key < k → templates (parade l key).2 k = templates l k := by
  induction l with
  | nil => simp [parade, templates]
  | cons p l1 ih =>
    obtain ⟨hp, hl1⟩ := pairwise_cons.mp hsorted
    rw [parade]
    split
    next heq =>
      obtain ⟨htemplates, hrest, hpair, hothers⟩ :=
        ih hl1 fun q hq => hle q (mem_cons_of_mem p hq)
      refine ⟨?_, hrest, hpair, fun k hk => ?_⟩
      · simp only [htemplates, templates, filter_cons, heq, decide_true, if_true,
          map_cons]
      · have hne : p.1 ≠ k := heq ▸ hk.ne
        rw [hothers k hk]
        simp [templates, hne]
    next hne =>
      have hlt : ∀ q ∈ p :: l1, key < q.1 := by
        have hfirst := lt_of_le_of_ne (hle p mem_cons_self) (Ne.symm hne)
        exact forall_mem_cons.mpr ⟨hfirst, fun q hq => hfirst.trans_le (hp q hq)⟩
      exact ⟨(templates_of_lt hlt).symm, hlt, hsorted, fun _ _ => rfl⟩

/-- What the two predicates enumerate, where the bag of `pdecide` is that of a key before all others
that are left. -/
theorem ppick_pdecide (n : Nat) :
    (∀ (bags : List (κ × τ)) allKs, bags.length + allKs.length ≤ n → bags ≠ [] →
      bags.Pairwise (fun p q => p.1 ≤ q.1) → allKs.Pairwise (· < ·) →
      ppick bags allKs = allKs.map fun k => (k, templates bags k)) ∧
    ∀ (bags : List (κ × τ)) bag0 key1 allKs, bags.length + allKs.length ≤ n →
      bags.Pairwise (fun p q => p.1 ≤ q.1) → (∀ p ∈ bags, key1 < p.1) → allKs.Pairwise (· < ·) →
      pdecide bags bag0 key1 allKs =
        allKs.map fun k => (k, if k = key1 then bag0 else templates bags k) := by
  induction n using Nat.strongRecOn with
  | ind n ih =>
    have hpick : ∀ (bags : List (κ × τ)) allKs, bags.length + allKs.length ≤ n → bags ≠ [] →
        bags.Pairwise (fun p q => p.1 ≤ q.1) → allKs.Pairwise (· < ·) →
        ppick bags allKs = allKs.map fun k => (k, templates bags k) := by
      intro bags allKs hn hne hsorted hkeys
      obtain ⟨⟨key1, x⟩, l, rfl⟩ := exists_cons_of_ne_nil hne
      obtain ⟨hfirst, hl⟩ := pairwise_cons.mp hsorted
      obtain ⟨htemplates, hgt, hpair, hothers⟩ := parade_eq hl hfirst
      have hlength := parade_length_le l key1
      rw [length_cons] at hn
      rw [ppick, (ih (n - 1) (by omega)).2 _ _ _ _ (by dsimp only; omega) hpair hgt hkeys]
      apply map_congr_left
      intro k _
      rw [Prod.mk.injEq, eq_self, true_and]
      split
      next heq =>
        rw [heq, htemplates]
        simp [templates]
      next hne' =>
        rcases lt_or_gt_of_ne hne' with hlt | hgt'
        · rw [templates_of_lt fun p hp => hlt.trans (hgt p hp), templates_of_lt]
          exact forall_mem_cons.mpr ⟨hlt, fun p hp => hlt.trans_le (hfirst p hp)⟩
        · rw [hothers k hgt']
          simp [templates, Ne.symm hne']
    refine ⟨hpick, fun bags bag0 key1 allKs hn hsorted hgt hkeys => ?_⟩
    cases allKs with
    | nil => rw [pdecide, map_nil]
    | cons key0 allKeys =>
      obtain ⟨hfirst, hrest⟩ := pairwise_cons.mp hkeys
      rw [length_cons] at hn
      -- the keys that come behind `Key0`
      have hlater : ∀ b : List τ, key1 ≤ key0 →
          (allKeys.map fun k => (k, if k = key1 then b else templates bags k)) =
            allKeys.map fun k => (k, templates bags k) := by
        intro b hle
        apply map_congr_left
        intro k hk
        rw [if_neg (hle.trans_lt (hfirst k hk)).ne']
      rw [pdecide, map_cons]
      split
      next heq =>
        rw [heq, hlater bag0 heq.ge]
        congr 1
        split
        next hempty =>
          obtain rfl := isEmpty_iff.mp hempty
          rw [(ih (n - 1) (by omega)).2 [] [] key1 allKeys (by omega) .nil
            (by simp) hrest, hlater [] heq.ge]
        next hempty =>
          exact hpick bags allKeys (by omega) (fun h ↦ hempty (isEmpty_iff.mpr h)) hsorted hrest
      next hne =>
        split
        next hor =>
          have hnone : templates bags key0 = [] := by
            rcases hor with hlt | hempty
            · exact templates_of_lt fun p hp => hlt.trans (hgt p hp)
            · rw [isEmpty_iff.mp hempty]
              rfl
          rw [hnone, (ih (n - 1) (by omega)).2 bags bag0 key1 allKeys (by omega) hsorted hgt hrest]
        next hor =>
          obtain ⟨hle, hempty⟩ := not_or.mp hor
          rw [hpick bags (key0 :: allKeys) hn (fun h ↦ hempty (isEmpty_iff.mpr h)) hsorted hkeys,
            map_cons, hlater bag0 (not_lt.mp hle)]

end XSBEngine.Setof.Bounded
