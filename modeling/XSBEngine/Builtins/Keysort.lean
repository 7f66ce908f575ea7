import Mathlib
import XSBEngine.Builtins.Qsort
import XSBEngine.Builtins.Terms

/-!
# Sorting by keys

`keysort/2` of the multi-threaded engine, `XSB/emu/std_pred_xsb_i.h:744–804`, with `key_compare`,
`XSB/emu/subp.c:774–782`, on top of `qsort0`.
-/

namespace XSBEngine.Builtins

open List

open Heap (CString)
open Library

/-- `mt_qsort`, on the cells of a table. -/
def mtQsort {α : Type} (n : Nat) (v : List α) (dflt : α) (comp : α → α → Int) : Option (List α) :=
  (qsort0 0 (v.length - 1) comp n 0 (v.length - 1) fun i => v.getD i.toNat dflt).map
    fun a => (List.range v.length).map fun i => a i

/-- What the sort does to a table. -/
theorem mtQsort_spec {α : Type} {v : List α} {comp : α → α → Int} (dflt : α)
    (hc : Compares comp (· ∈ v)) :
    ∃ out, (∀ n, v.length + 17 ≤ n → mtQsort n v dflt comp = some out) ∧ out.Perm v ∧
      out.Pairwise fun x y => comp x y ≤ 0 := by
  have hP : Within (· ∈ v) (fun i => v.getD i.toNat dflt) 0 (v.length - 1) := by
    intro i hi
    show v.getD i.toNat dflt ∈ v
    rw [getD_eq_getElem v dflt (by omega)]
    exact getElem_mem _
  obtain ⟨a, hrun, hre, hasc⟩ := qsort0_spec hc (Int.le_refl 0) (Int.le_refl _) hP
  refine ⟨(List.range v.length).map fun i : Nat => a i, fun n hn => ?_, ?_, ?_⟩
  · rw [mtQsort, hrun n (by omega)]
    rfl
  · have hperm := hre.map_perm (l := (List.range v.length).map fun i : Nat => (i : Int))
      (List.Nodup.map Int.ofNat_injective nodup_range) (by
        intro i
        rw [mem_map]
        constructor
        · rintro ⟨k, hk, rfl⟩
          have hlt := mem_range.mp hk
          omega
        · intro hi
          exact ⟨i.toNat, mem_range.mpr (by omega), by omega⟩)
    rw [map_map, map_map] at hperm
    have hself : (List.range v.length).map (fun i : Nat => v.getD i dflt) = v := by
      apply ext_getElem (by simp)
      intro i hi hi'
      rw [getElem_map, getElem_range, getD_eq_getElem v dflt hi']
    have hcells : (List.range v.length).map
        ((fun i : Int => v.getD i.toNat dflt) ∘ fun i : Nat => (i : Int)) = v := hself
    rw [hcells] at hperm
    exact hperm
  · rw [pairwise_map]
    apply List.Pairwise.imp_of_mem _ pairwise_lt_range
    intro i j hi hj hij
    have hlt := mem_range.mp hj
    exact hasc i j (by omega) (by omega) (by omega)

namespace Keysort

theorem noNul_minus : (0 : UInt8) ∉ [45] := by decide

/-- `"-"`. -/
def minusName : CString := ⟨[45], noNul_minus⟩

/-- The test of an element. -/
def isPair : Term → Bool
  | .cs psc _ => psc.arity = 2 && psc.name = minusName
  | _ => false

/-- The key of a pair. -/
def key (t : Term) : Term := (t.getStrArg 1).getD .nil

/-- The loop over the list. The culprit of the second error is `NULL`, for which the error term
has the integer 0. -/
def readPairs (list : Term) : Term → Except Abort (List Term)
  | .list head tail =>
    if isPair head then
      match readPairs list tail with
      | .error e => .error e
      | .ok ts => .ok (head :: ts)
    else .error (.typeError "pair of the form Key-Value" (.int 0) "keysort/2" 1)
  | .string s => if s = nilName then .ok [] else .error (.typeError "list" list "keysort/2" 1)
  | .ref _ => .error (.instantiationError "keysort/2" 1)
  | _ => .error (.typeError "list" list "keysort/2" 1)

section Compare

-- `compare` of `XSB/emu/subp.c:639`
variable (compare : Term → Term → Int)

/-- `key_compare`. -/
def keyCompare (t u : Term) : Int := compare (key t) (key u)

/-- `keysort`: the list that is unified with the second argument. -/
def keysort (n : Nat) (list : Term) : Except Abort (Option (List Term)) :=
  match readPairs list list with
  | .error e => .error e
  | .ok [] => .ok (some [])
  | .ok cellTbl => .ok (mtQsort n cellTbl .nil (keyCompare compare))

/-- Pairs whose keys are equal are in the order in which they have been. -/
def KeepsOrder (l out : List Term) : Prop :=
  ∀ t ∈ l, (out.filter fun u => keyCompare compare u t = 0) =
    l.filter fun u => keyCompare compare u t = 0

instance (l out : List Term) : Decidable (KeepsOrder compare l out) :=
  inferInstanceAs (Decidable (∀ t ∈ l, _ = _))

end Compare

variable {compare : Term → Term → Int} {l : List Term}

/-- A list of pairs is copied into the table. -/
theorem readPairs_ofList (list : Term) (h : ∀ t ∈ l, isPair t) :
    readPairs list (.ofList l) = .ok l := by
  induction l with
  | nil => exact if_pos rfl
  | cons t ts ih =>
    obtain ⟨ht, hts⟩ := forall_mem_cons.mp h
    rw [Term.ofList, readPairs, if_pos ht, ih hts]

theorem keysort_ofList (n : Nat) (hl : l ≠ []) (h : ∀ t ∈ l, isPair t) :
    keysort compare n (.ofList l) = .ok (mtQsort n l .nil (keyCompare compare)) := by
  rw [keysort, readPairs_ofList _ h]
  cases l with
  | nil => exact absurd rfl hl
  | cons t ts => rfl

/-- Integers by their difference. -/
def intCompare : Term → Term → Int
  | .int i, .int j => i - j
  | _, _ => 0

theorem length_pair (k v : Int) : [Term.int k, .int v].length = 2 := rfl

/-- `Key-Value`, for integers. -/
def pair (k v : Int) : Term :=
  .ofArgs (insertPsc minusName 2 none two_le_maxArity) [.int k, .int v] (length_pair k v)

theorem intCompare_pairs (ps : List (Int × Int)) :
    Compares intCompare fun k => ∃ t ∈ ps.map fun p => pair p.1 p.2, k = key t := by
  have hint : ∀ k, (∃ t ∈ ps.map fun p => pair p.1 p.2, k = key t) → ∃ i, k = .int i := by
    rintro k ⟨t, ht, rfl⟩
    obtain ⟨p, -, rfl⟩ := mem_map.mp ht
    exact ⟨p.1, rfl⟩
  constructor
  · intro a b ha hb
    obtain ⟨i, rfl⟩ := hint a ha
    obtain ⟨j, rfl⟩ := hint b hb
    show i - j < 0 ↔ 0 < j - i
    omega
  · intro a b d ha hb hd hab hbd
    obtain ⟨i, rfl⟩ := hint a ha
    obtain ⟨j, rfl⟩ := hint b hb
    obtain ⟨k, rfl⟩ := hint d hd
    have hij : i - j ≤ 0 := hab
    have hjk : j - k ≤ 0 := hbd
    show i - k ≤ 0
    omega

end Keysort

end XSBEngine.Builtins
