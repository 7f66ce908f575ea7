import XSBEngine.Builtins.Univ
import XSBEngine.Library.Comparisons

/-!
# Sorting by arguments

`parsort/4` with `par_key_compare`, `XSB/emu/std_pred_xsb_i.h:806–953`, and the arrays of
`XSB/emu/context.h:71–75`.
-/

namespace XSBEngine.Builtins

open List

open Heap (CString)
open Library

/-- `"asc"`. -/
def ascName : CString := ⟨[97, 115, 99], by decide⟩

/-- `"desc"`. -/
def descName : CString := ⟨[100, 101, 115, 99], by decide⟩

/-- `par_spec`: the number of parameters, -1 for whole terms in descending order, and the entries
of the arrays in front of it. -/
structure SortParSpec where
  numPars : Int
  pars : List (Bool × Nat)

/-- The argument that is compared. The cells of lists are counted from 0. -/
def sortArg (ind : Nat) (t : Term) : Term :=
  (t.getStrArg (if t.islist then ind - 1 else ind)).getD .nil

section Comparing

-- `compare` of `XSB/emu/subp.c:639`
variable (compare : Term → Term → Int)

/-- The loop of `par_key_compare`. -/
def keyCompare : List (Bool × Nat) → Term → Term → Int
  | [], _, _ => 0
  | (dir, ind) :: pars, t, u =>
    let cmp := compare (sortArg ind t) (sortArg ind u)
    if cmp ≠ 0 then if dir then cmp else -cmp else keyCompare pars t u

/-- `par_key_compare`. -/
def parKeyCompare (p : SortParSpec) (t u : Term) : Int :=
  if p.numPars > 0 then keyCompare compare p.pars t u
  else if p.numPars = 0 then compare t u
  else -compare t u

/-- The loop that leaves out the terms that are equal to the one in front of them. -/
def newTerms (prev : Term) : List Term → List Term
  | [] => []
  | t :: ts => if compare t prev ≠ 0 then t :: newTerms t ts else newTerms t ts

def elimDupls : List Term → List Term
  | [] => []
  | t :: ts => t :: newTerms compare t ts

end Comparing

/-- The direction of an entry of the specification. -/
def direction (head : Term) : Except Abort Bool :=
  match head with
  | .cs psc _ =>
    if psc.arity = 1 ∧ psc.name = ascName then .ok true
    else if psc.arity = 1 ∧ psc.name = descName then .ok false
    else .error (.typeError "asc/1 or desc/1 term" head "parsort/4" 2)
  | head => .error (.typeError "asc/1 or desc/1 term" head "parsort/4" 2)

/-- The cast of an index to an `unsigned int`. -/
def castIndex (i : Int) : Nat := (i % 2 ^ 32).toNat

/-- The index of an entry, as it is written. It is tested behind its cast. -/
def sortIndex (head : Term) : Except Abort Int :=
  match head.getStrArg 1 with
  | some (.int i) =>
    if castIndex i < 1 ∨ castIndex i > 255 then
      .error (.domainError "arity_sized_integer" (.int i) "parsort/4" 2)
    else .ok i
  | t => .error (.typeError "integer arg for asc/1 or desc/1" (t.getD .nil) "parsort/4" 2)

/-- The loop over the specification. The arrays have ten entries. -/
def readPars (list : Term) : Term → List (Bool × Nat) → Except Abort (List (Bool × Nat))
  | .list head tail, pars =>
    match direction head with
    | .error e => .error e
    | .ok dir =>
      if 10 ≤ pars.length then .error .outside
      else
        match sortIndex head with
        | .error e => .error e
        | .ok i => readPars list tail (pars ++ [(dir, castIndex i)])
  | .string s, pars =>
    if s = nilName then .ok pars else .error (.typeError "list" list "parsort/4" 2)
  | _, _ => .error (.typeError "list" list "parsort/4" 2)

/-- The second argument. -/
def readSpec (spec : Term) : Except Abort SortParSpec :=
  if spec = .string ascName then .ok ⟨0, []⟩
  else if spec = .string descName then .ok ⟨-1, []⟩
  else
    match readPars spec spec [] with
    | .error e => .error e
    | .ok pars => .ok ⟨pars.length, pars⟩

/-- `max_ind`. -/
def maxInd : List (Bool × Nat) → Nat
  | [] => 0
  | (_, ind) :: pars => max ind (maxInd pars)

/-- Whether a term has arguments up to a number. A boxed number is taken for a structure. -/
def hasArgs (n : Nat) : Term → Bool
  | .cs psc _ => n ≤ psc.arity
  | .list _ _ => n ≤ 2
  | _ => false

/-- The test of a term that is sorted. -/
def sortable (p : SortParSpec) (t : Term) : Bool := p.numPars ≤ 0 || hasArgs (maxInd p.pars) t

/-- The first argument: `cell_tbl`. -/
def readTable (p : SortParSpec) (list : Term) : Term → Except Abort (List Term)
  | .list head tail =>
    if sortable p head then
      match readTable p list tail with
      | .error e => .error e
      | .ok ts => .ok (head :: ts)
    else
      .error (.domainError ("Term with arity at least " ++ toString (maxInd p.pars)) head
        "parsort/4" 1)
  | .string s => if s = nilName then .ok [] else .error (.typeError "list" list "parsort/4" 1)
  | .ref _ => .error (.instantiationError "parsort/4" 1)
  | _ => .error (.typeError "list" list "parsort/4" 1)

/-- `parsort`: the list that is unified with the fourth argument. The third one is cast to
an `int`. -/
def parsort (compare : Term → Term → Int)
    (qsort : (Term → Term → Int) → List Term → List Term) (list spec : Term) (elim : Int) :
    Except Abort (List Term) :=
  match readSpec spec with
  | .error e => .error e
  | .ok p =>
    match readTable p list list with
    | .error e => .error e
    | .ok [] => .ok []
    | .ok cellTbl =>
      let table := qsort (parKeyCompare compare p) cellTbl
      .ok (if elim.bmod (2 ^ 32) ≠ 0 then elimDupls compare table else table)

/-! ### What is specified -/

/-- A specification: whole terms in one of the directions, or directions with the numbers of
arguments. -/
inductive SortSpec where
  | whole (asc : Bool)
  | keys (ks : List (Bool × Int))
deriving DecidableEq

namespace SortSpec

/-- The arguments of a specification. -/
def args : SortSpec → List (Bool × Int)
  | whole _ => []
  | keys ks => ks

/-- The parameters of a specification, for arrays of any length. -/
def par : SortSpec → SortParSpec
  | whole true => ⟨0, []⟩
  | whole false => ⟨-1, []⟩
  | keys ks => ⟨ks.length, ks.map fun k => (k.1, castIndex k.2)⟩

/-- The entries of a list of which each one is accepted. -/
def readKeys : Term → Option (List (Bool × Int))
  | .list head tail =>
    match direction head, sortIndex head, readKeys tail with
    | .ok dir, .ok i, some ks => some ((dir, i) :: ks)
    | _, _, _ => none
  | .string s => if s = nilName then some [] else none
  | _ => none

/-- The specification that a term is accepted as. -/
def read (spec : Term) : Option SortSpec :=
  if spec = .string ascName then some (whole true)
  else if spec = .string descName then some (whole false)
  else (readKeys spec).map keys

end SortSpec

/-- An argument of a term. -/
def partAt (i : Int) (t : Term) : Option Term := if 1 ≤ i then (parts t)[i.toNat]? else none

/-- The order by the arguments, the later ones for terms that agree in the earlier ones. -/
def KeysLe (compare : Term → Term → Int) : List (Bool × Int) → Term → Term → Prop
  | [], _, _ => True
  | (asc, i) :: ks, t, u =>
    ∃ a b, partAt i t = some a ∧ partAt i u = some b ∧
      ((if asc then compare a b < 0 else compare b a < 0) ∨ a = b ∧ KeysLe compare ks t u)

/-- The order of a specification. Without arguments it is that of whole terms. -/
def SortSpec.Le (compare : Term → Term → Int) : SortSpec → Term → Term → Prop
  | .whole false, t, u => compare u t ≤ 0
  | .whole true, t, u => compare t u ≤ 0
  | .keys [], t, u => compare t u ≤ 0
  | .keys ks, t, u => KeysLe compare ks t u

/-- What is said of the result of sorting: the arguments of the specification are there, the
terms are in order, all of them or each one once. -/
structure Sorted (compare : Term → Term → Int) (s : SortSpec) (elim : Int) (l out : List Term) :
    Prop where
  present : ∀ t ∈ l, ∀ k ∈ s.args, (partAt k.2 t).isSome
  ordered : out.Pairwise (s.Le compare)
  all : elim = 0 → out.Perm l
  once : elim ≠ 0 → out.Nodup ∧ ∀ t, t ∈ out ↔ t ∈ l

/-- The terms that are compared. -/
def Compared (s : SortSpec) (l : List Term) (t : Term) : Prop :=
  t ∈ l ∨ ∃ u ∈ l, ∃ k ∈ s.par.pars, t = sortArg k.2 u

/-- `compare` does what its comment says of the terms that are compared: its signs are those of a
total order, and 0 is for equal terms. -/
structure Orders (compare : Term → Term → Int) (S : Term → Prop) : Prop where
  compares : Compares compare S
  eq_iff {t u : Term} : S t → S u → (compare t u = 0 ↔ t = u)

/-- The sorting routine returns some permutation that is ordered by the comparison. -/
structure Sorts (qsort : (Term → Term → Int) → List Term → List Term)
    (cmp : Term → Term → Int) (l : List Term) : Prop where
  perm : (qsort cmp l).Perm l
  pairwise : (qsort cmp l).Pairwise fun t u => cmp t u ≤ 0

/-- The terms, the specification and the third argument for which all of this holds. -/
structure Suits (s : SortSpec) (elim : Int) (l : List Term) : Prop where
  ten : s.args.length ≤ 10
  indices : l = [] ∨ ∀ k ∈ s.args, 1 ≤ k.2 ∧ k.2 ≤ 255
  unboxed : s.args ≠ [] → ∀ t ∈ l, ¬ (t.isofloat ∨ t.isointeger)
  cast : elim ≠ 0 → elim.bmod (2 ^ 32) = 0 → l.Nodup
  repeats : elim ≠ 0 → s.args ≠ [] → ∀ t ∈ l, 2 ≤ l.count t → ∀ u ∈ l,
    (∀ k ∈ s.args, partAt k.2 u = partAt k.2 t) → u = t

section Reading

variable {compare : Term → Term → Int} {s : SortSpec} {spec t u : Term} {l : List Term}
  {ks : List (Bool × Int)} {pars : List (Bool × Nat)}

theorem sortIndex_range {head : Term} {i : Int} (h : sortIndex head = .ok i) :
    1 ≤ castIndex i ∧ castIndex i ≤ 255 := by
  rw [sortIndex] at h
  split at h
  · split at h
    · cases h
    · cases h
      omega
  · cases h

/-- The entries of an accepted list have indices that pass the test behind their cast. -/
theorem readKeys_range (h : SortSpec.readKeys spec = some ks) :
    ∀ k ∈ ks, 1 ≤ castIndex k.2 ∧ castIndex k.2 ≤ 255 := by
  induction spec generalizing ks with
  | list head tail _ ih =>
    rw [SortSpec.readKeys] at h
    split at h
    · next dir i ks' hdir hi htail =>
      cases h
      exact forall_mem_cons.mpr ⟨sortIndex_range hi, ih htail⟩
    · cases h
  | string s =>
    rw [SortSpec.readKeys] at h
    split at h
    · cases h
      nofun
    · cases h
  | ref a | attv a | int i | cs psc args => cases h

theorem SortSpec.read_range (h : SortSpec.read spec = some s) :
    ∀ k ∈ s.args, 1 ≤ castIndex k.2 ∧ castIndex k.2 ≤ 255 := by
  rw [SortSpec.read] at h
  split at h
  · cases h
    nofun
  · split at h
    · cases h
      nofun
    · obtain ⟨ks, hks, rfl⟩ := Option.map_eq_some_iff.mp h
      exact readKeys_range hks

/-- The loop over an accepted list stores its entries in the arrays, or writes behind them. -/
theorem readPars_keys (list : Term) (h : SortSpec.readKeys spec = some ks)
    (hpars : pars.length ≤ 10) :
    readPars list spec pars =
      if pars.length + ks.length ≤ 10 then
        .ok (pars ++ ks.map fun k => (k.1, castIndex k.2))
      else .error .outside := by
  induction spec generalizing ks pars with
  | list head tail _ ih =>
    rw [SortSpec.readKeys] at h
    split at h
    · next dir i ks' hdir hi htail =>
      cases h
      simp only [readPars, hdir, hi]
      split
      · next hfull =>
        rw [if_neg]
        rw [length_cons]
        omega
      · next hroom =>
        have hlength : (pars ++ [(dir, castIndex i)]).length = pars.length + 1 := by
          rw [length_append, length_singleton]
        rw [ih htail (by omega), hlength, append_assoc, length_cons, Nat.add_right_comm]
        rfl
    · cases h
  | string s =>
    rw [SortSpec.readKeys] at h
    split at h
    · next hnil =>
      cases h
      rw [readPars, if_pos hnil, if_pos (show pars.length + [].length ≤ 10 from hpars),
        map_nil, append_nil]
    · cases h
  | ref a | attv a | int i | cs psc args => cases h

/-- An accepted specification is read, or the arrays are left. -/
theorem readSpec_read (h : SortSpec.read spec = some s) :
    readSpec spec = if s.args.length ≤ 10 then .ok s.par else .error .outside := by
  rw [SortSpec.read] at h
  rw [readSpec]
  split at h
  · next hasc =>
    cases h
    rw [if_pos hasc]
    rfl
  · next hasc =>
    rw [if_neg hasc]
    split at h
    · next hdesc =>
      cases h
      rw [if_pos hdesc]
      rfl
    · next hdesc =>
      obtain ⟨ks, hks, rfl⟩ := Option.map_eq_some_iff.mp h
      have hread : readPars spec spec [] = _ := readPars_keys spec hks (Nat.zero_le 10)
      rw [length_nil, Nat.zero_add] at hread
      rw [if_neg hdesc, hread]
      show _ = if ks.length ≤ 10 then _ else _
      by_cases hten : ks.length ≤ 10
      · simp only [if_pos hten, nil_append, length_map]
        rfl
      · simp only [if_neg hten]

/-- A list of terms that pass the test is copied into the table. -/
theorem readTable_ofList {p : SortParSpec} (list : Term) (h : ∀ t ∈ l, sortable p t) :
    readTable p list (.ofList l) = .ok l := by
  induction l with
  | nil => exact if_pos rfl
  | cons t ts ih =>
    obtain ⟨ht, hts⟩ := forall_mem_cons.mp h
    rw [Term.ofList, readTable, if_pos ht, ih hts]

/-- What `parsort` does with accepted arguments. -/
theorem parsort_accepted {qsort : (Term → Term → Int) → List Term → List Term} {elim : Int}
    (hspec : SortSpec.read spec = some s) (hl : ∀ t ∈ l, sortable s.par t)
    (hsorts : Sorts qsort (parKeyCompare compare s.par) l) :
    parsort compare qsort (.ofList l) spec elim =
      if s.args.length ≤ 10 then
        .ok (if elim.bmod (2 ^ 32) ≠ 0 then
          elimDupls compare (qsort (parKeyCompare compare s.par) l)
        else qsort (parKeyCompare compare s.par) l)
      else .error .outside := by
  rw [parsort, readSpec_read hspec]
  by_cases hten : s.args.length ≤ 10
  · simp only [if_pos hten, readTable_ofList _ hl]
    cases l with
    | nil =>
      have hempty := perm_nil.mp hsorts.perm
      simp only [hempty, elimDupls, ite_self]
    | cons t ts => rfl
  · simp only [if_neg hten]

end Reading

section Positions

variable {compare : Term → Term → Int} {s : SortSpec} {t u : Term} {l : List Term} {i : Int}
  {ks : List (Bool × Int)}

theorem castIndex_eq (h : 1 ≤ i ∧ i ≤ 255) : castIndex i = i.toNat := by
  rw [castIndex, Int.emod_eq_of_lt (by omega) (by omega)]

theorem le_maxInd {pars : List (Bool × Nat)} {k : Bool × Nat} (h : k ∈ pars) :
    k.2 ≤ maxInd pars := by
  induction pars with
  | nil => cases h
  | cons k' pars ih =>
    obtain ⟨dir, ind⟩ := k'
    rw [maxInd]
    rcases mem_cons.mp h with rfl | hmem
    · exact Nat.le_max_left ind _
    · exact Nat.le_trans (ih hmem) (Nat.le_max_right ind _)

/-- The argument that is compared is the one that the index numbers. -/
theorem partAt_sortArg (hboxed : ¬ (t.isofloat ∨ t.isointeger)) (hi : 1 ≤ i ∧ i ≤ 255)
    (hroom : hasArgs (castIndex i) t) : partAt i t = some (sortArg (castIndex i) t) := by
  rw [castIndex_eq hi] at hroom ⊢
  obtain ⟨k, rfl⟩ : ∃ k : Nat, i = k + 1 := ⟨(i - 1).toNat, by omega⟩
  have hnat : ((k : Int) + 1).toNat = k + 1 := by omega
  rw [hnat] at hroom ⊢
  rw [partAt, if_pos hi.1, hnat]
  cases t with
  | ref a | attv a | string s | int j => cases hroom
  | list head tail =>
    have hle : k + 1 ≤ 2 := by simpa only [hasArgs, decide_eq_true_eq] using hroom
    rcases k with _ | _ | k
    · rfl
    · rfl
    · omega
  | cs psc args =>
    have hle : k + 1 ≤ psc.arity := by simpa only [hasArgs, decide_eq_true_eq] using hroom
    have hlt : k < psc.arity := hle
    have hparts : parts (.cs psc args) = .string psc.name :: List.ofFn args := if_neg hboxed
    have harg : (Term.cs psc args).getStrArg (k + 1) = some (args ⟨k, hle⟩) :=
      dif_pos ⟨by omega, hle⟩
    have hsort : sortArg (k + 1) (.cs psc args) = args ⟨k, hle⟩ := by
      show ((Term.cs psc args).getStrArg (k + 1)).getD .nil = _
      rw [harg, Option.getD_some]
    rw [hparts, List.getElem?_cons_succ, List.getElem?_ofFn, dif_pos hlt, hsort]

theorem hasArgs_mono {m n : Nat} (hle : m ≤ n) (h : hasArgs n t) : hasArgs m t := by
  cases t with
  | cs psc args | list head tail =>
    simp only [hasArgs, decide_eq_true_eq] at h ⊢
    omega
  | ref a | attv a | string s | int j => cases h

/-- The arguments that are compared are those of the specification. -/
theorem partAt_arg {k : Bool × Int} (hk : k ∈ s.args)
    (hindices : l = [] ∨ ∀ k ∈ s.args, 1 ≤ k.2 ∧ k.2 ≤ 255)
    (hunboxed : s.args ≠ [] → ∀ t ∈ l, ¬ (t.isofloat ∨ t.isointeger))
    (hl : ∀ t ∈ l, sortable s.par t) (ht : t ∈ l) :
    partAt k.2 t = some (sortArg (castIndex k.2) t) := by
  have hindex := hindices.resolve_left (ne_nil_of_mem ht) k hk
  cases s with
  | whole asc => cases hk
  | keys ks =>
    apply partAt_sortArg (hunboxed (ne_nil_of_mem hk) t ht) hindex
    have hmem : (k.1, castIndex k.2) ∈ (SortSpec.keys ks).par.pars :=
      mem_map.mpr ⟨k, hk, rfl⟩
    have hpos : ¬ (SortSpec.keys ks).par.numPars ≤ 0 := by
      have := length_pos_of_mem hk
      show ¬ (ks.length : Int) ≤ 0
      simp only [SortSpec.args] at this
      omega
    have hsortable := hl t ht
    rw [sortable, Bool.or_eq_true, decide_eq_true_eq] at hsortable
    exact hasArgs_mono (le_maxInd hmem) (hsortable.resolve_left hpos)

/-- An accepted index of an argument that is there is not changed by the cast. -/
theorem index_of_partAt (hcast : 1 ≤ castIndex i ∧ castIndex i ≤ 255)
    (h : (partAt i t).isSome) : 1 ≤ i ∧ i ≤ 255 := by
  rw [partAt] at h
  split at h
  · next hpos =>
    obtain ⟨a, ha⟩ := Option.isSome_iff_exists.mp h
    obtain ⟨hlt, -⟩ := List.getElem?_eq_some_iff.mp ha
    have hlength := length_parts_le t
    rw [castIndex, Int.emod_eq_of_lt (by omega) (by omega)] at hcast
    omega
  · cases h

/-- A boxed number has no arguments. -/
theorem partAt_boxed (hboxed : t.isofloat ∨ t.isointeger) : ¬ (partAt i t).isSome := by
  rw [partAt]
  split
  · next hpos =>
    have hparts : parts t = [t] := if_pos hboxed
    obtain ⟨k, rfl⟩ : ∃ k : Nat, i = k + 1 := ⟨(i - 1).toNat, by omega⟩
    have hnat : ((k : Int) + 1).toNat = k + 1 := by omega
    rw [hparts, hnat]
    nofun
  · nofun

/-- All arguments of the specification are there exactly if it says so. -/
theorem present_iff (hcast : ∀ k ∈ s.args, 1 ≤ castIndex k.2 ∧ castIndex k.2 ≤ 255)
    (hl : ∀ t ∈ l, sortable s.par t) :
    (∀ t ∈ l, ∀ k ∈ s.args, (partAt k.2 t).isSome) ↔
      (l = [] ∨ ∀ k ∈ s.args, 1 ≤ k.2 ∧ k.2 ≤ 255) ∧
        (s.args ≠ [] → ∀ t ∈ l, ¬ (t.isofloat ∨ t.isointeger)) := by
  constructor
  · intro hpresent
    constructor
    · cases l with
      | nil => exact Or.inl rfl
      | cons t ts =>
        right
        intro k hk
        exact index_of_partAt (hcast k hk) (hpresent t mem_cons_self k hk)
    · intro hargs t ht hboxed
      obtain ⟨k, hk⟩ := exists_mem_of_ne_nil _ hargs
      exact partAt_boxed hboxed (hpresent t ht k hk)
  · rintro ⟨hindices, hunboxed⟩ t ht k hk
    rw [partAt_arg hk hindices hunboxed hl ht]
    rfl

end Positions

section Order

open scoped List

variable {compare : Term → Term → Int} {S : Term → Prop} {s : SortSpec} {t u : Term}
  {l ts : List Term} {ks : List (Bool × Int)} {pars : List (Bool × Nat)}

theorem compares_keyCompare (h : Compares compare S)
    (hmem : ∀ k ∈ pars, ∀ t ∈ l, S (sortArg k.2 t)) :
    Compares (keyCompare compare pars) (· ∈ l) := by
  induction pars with
  | nil => exact ⟨fun _ _ => Iff.rfl, fun _ _ _ _ _ => Int.le_refl 0⟩
  | cons k pars ih =>
    obtain ⟨dir, ind⟩ := k
    obtain ⟨hfirst, hrest⟩ := forall_mem_cons.mp hmem
    have harg : Compares (fun t u => compare (sortArg ind t) (sortArg ind u)) (· ∈ l) :=
      h.comap (sortArg ind) hfirst
    have hdir : Compares (fun t u => if dir then compare (sortArg ind t) (sortArg ind u)
        else -compare (sortArg ind t) (sortArg ind u)) (· ∈ l) := by
      cases dir with
      | true => exact harg
      | false => exact harg.neg
    have heq : keyCompare compare ((dir, ind) :: pars) =
        thenBy (fun t u => if dir then compare (sortArg ind t) (sortArg ind u)
          else -compare (sortArg ind t) (sortArg ind u)) (keyCompare compare pars) := by
      funext t u
      simp only [keyCompare, thenBy]
      cases dir with
      | true => rfl
      | false => simp only [Bool.false_eq_true, if_false, ne_eq, Int.neg_eq_zero]
    rw [heq]
    exact hdir.thenBy (ih hrest)

/-- `par_key_compare` orders the terms. -/
theorem compares_parKeyCompare (h : Orders compare (Compared s l)) :
    Compares (parKeyCompare compare s.par) (· ∈ l) := by
  have hwhole : Compares compare (· ∈ l) := h.compares.mono fun t ht => Or.inl ht
  cases s with
  | whole asc =>
    cases asc with
    | true => exact hwhole
    | false => exact hwhole.neg
  | keys ks =>
    cases ks with
    | nil => exact hwhole
    | cons k ks =>
      have hpos : (SortSpec.keys (k :: ks)).par.numPars > 0 := by
        show ((k :: ks).length : Int) > 0
        rw [length_cons]
        omega
      have heq : parKeyCompare compare (SortSpec.keys (k :: ks)).par =
          keyCompare compare (SortSpec.keys (k :: ks)).par.pars := by
        funext t u
        exact if_pos hpos
      rw [heq]
      exact compares_keyCompare h.compares fun k hk t ht => Or.inr ⟨t, ht, k, hk, rfl⟩

section

variable (h : Orders compare S)
include h

/-- Keys compare as equal if they are. -/
theorem keyCompare_eq_zero_iff
    (ht : ∀ k ∈ pars, S (sortArg k.2 t)) (hu : ∀ k ∈ pars, S (sortArg k.2 u)) :
    keyCompare compare pars t u = 0 ↔ ∀ k ∈ pars, sortArg k.2 t = sortArg k.2 u := by
  induction pars with
  | nil => exact ⟨fun _ => nofun, fun _ => rfl⟩
  | cons k pars ih =>
    obtain ⟨dir, ind⟩ := k
    obtain ⟨ht0, ht'⟩ := forall_mem_cons.mp ht
    obtain ⟨hu0, hu'⟩ := forall_mem_cons.mp hu
    rw [forall_mem_cons, ← ih ht' hu', ← h.eq_iff ht0 hu0]
    simp only [keyCompare]
    by_cases hzero : compare (sortArg ind t) (sortArg ind u) = 0
    · rw [if_neg (not_not.mpr hzero)]
      exact ⟨fun hrest => ⟨hzero, hrest⟩, fun hboth => hboth.2⟩
    · rw [if_pos hzero]
      constructor
      · intro hsign
        split at hsign
        all_goals omega
      · intro hboth
        exact absurd hboth.1 hzero

/-- `par_key_compare` follows the order by arguments. -/
theorem keyCompare_le_iff (ht : ∀ k ∈ ks, partAt k.2 t = some (sortArg (castIndex k.2) t) ∧
      S (sortArg (castIndex k.2) t))
    (hu : ∀ k ∈ ks, partAt k.2 u = some (sortArg (castIndex k.2) u) ∧
      S (sortArg (castIndex k.2) u)) :
    keyCompare compare (ks.map fun k => (k.1, castIndex k.2)) t u ≤ 0 ↔
      KeysLe compare ks t u := by
  induction ks with
  | nil => exact ⟨fun _ => trivial, fun _ => Int.le_refl 0⟩
  | cons k ks ih =>
    obtain ⟨dir, i⟩ := k
    obtain ⟨⟨hpart, hS⟩, ht'⟩ := forall_mem_cons.mp ht
    obtain ⟨⟨hpart', hS'⟩, hu'⟩ := forall_mem_cons.mp hu
    have heq : compare (sortArg (castIndex i) t) (sortArg (castIndex i) u) = 0 ↔
        sortArg (castIndex i) t = sortArg (castIndex i) u := h.eq_iff hS hS'
    have hswap : compare (sortArg (castIndex i) u) (sortArg (castIndex i) t) < 0 ↔
        0 < compare (sortArg (castIndex i) t) (sortArg (castIndex i) u) := h.compares.swap hS' hS
    have hrest := ih ht' hu'
    simp only [KeysLe, hpart, hpart', Option.some.injEq, exists_and_left, exists_eq_left',
      map_cons, keyCompare]
    rw [← hrest, ← heq]
    generalize compare (sortArg (castIndex i) t) (sortArg (castIndex i) u) = c at *
    generalize compare (sortArg (castIndex i) u) (sortArg (castIndex i) t) = c' at *
    cases dir with
    | true =>
      simp only [if_true]
      split
      · omega
      · omega
    | false =>
      simp only [Bool.false_eq_true, if_false]
      split
      · omega
      · omega

/-- The terms that differ from the one in front of them are those that do not compare as equal. -/
theorem newTerms_eq (ht : S t) (hts : ∀ u ∈ ts, S u) :
    newTerms compare t ts = keepNew t ts := by
  induction ts generalizing t with
  | nil => rfl
  | cons u ts ih =>
    obtain ⟨hu, hts'⟩ := forall_mem_cons.mp hts
    have heq := h.eq_iff hu ht
    rw [newTerms, keepNew, ih hu hts']
    by_cases hut : u = t
    · rw [if_pos hut, if_neg (not_not.mpr (heq.mpr hut))]
    · rw [if_neg hut, if_pos (fun hzero => hut (heq.mp hzero))]

theorem elimDupls_eq (hts : ∀ u ∈ ts, S u) :
    elimDupls compare ts = dropRepeats ts := by
  cases ts with
  | nil => rfl
  | cons t ts =>
    obtain ⟨ht, hts'⟩ := forall_mem_cons.mp hts
    rw [elimDupls, dropRepeats, newTerms_eq h ht hts']

end

/-- The terms are in the order of the specification where `par_key_compare` says so. -/
theorem parKeyCompare_le_iff (h : Orders compare (Compared s l))
    (hpart : ∀ t ∈ l, ∀ k ∈ s.args, partAt k.2 t = some (sortArg (castIndex k.2) t))
    (ht : t ∈ l) (hu : u ∈ l) : parKeyCompare compare s.par t u ≤ 0 ↔ s.Le compare t u := by
  cases s with
  | whole asc =>
    cases asc with
    | true => exact Iff.rfl
    | false =>
      have hsign := h.compares.nonneg_iff (Or.inl ht) (Or.inl hu)
      show -compare t u ≤ 0 ↔ compare u t ≤ 0
      omega
  | keys ks =>
    cases ks with
    | nil => exact Iff.rfl
    | cons k ks =>
      have hpos : (SortSpec.keys (k :: ks)).par.numPars > 0 := by
        show ((k :: ks).length : Int) > 0
        rw [length_cons]
        omega
      rw [parKeyCompare, if_pos hpos]
      have hall : ∀ v ∈ l, ∀ k' ∈ k :: ks, partAt k'.2 v = some (sortArg (castIndex k'.2) v) ∧
          Compared (.keys (k :: ks)) l (sortArg (castIndex k'.2) v) := by
        intro v hv k' hk'
        exact ⟨hpart v hv k' hk', Or.inr ⟨v, hv, (k'.1, castIndex k'.2),
          mem_map.mpr ⟨k', hk', rfl⟩, rfl⟩⟩
      exact keyCompare_le_iff h (hall t ht) (hall u hu)

/-- Terms that can stand in either order have the same arguments, or are equal if whole terms are
compared. -/
theorem parKeyCompare_both_iff (h : Orders compare (Compared s l))
    (hpart : ∀ t ∈ l, ∀ k ∈ s.args, partAt k.2 t = some (sortArg (castIndex k.2) t))
    (ht : t ∈ l) (hu : u ∈ l) :
    parKeyCompare compare s.par t u ≤ 0 ∧ parKeyCompare compare s.par u t ≤ 0 ↔
      if s.args = [] then u = t else ∀ k ∈ s.args, partAt k.2 u = partAt k.2 t := by
  have hcompares := compares_parKeyCompare h
  have hzero : parKeyCompare compare s.par t u ≤ 0 ∧ parKeyCompare compare s.par u t ≤ 0 ↔
      parKeyCompare compare s.par u t = 0 := by
    have hsign := hcompares.swap hu ht
    have hsign' := hcompares.swap ht hu
    omega
  have hwhole : compare u t = 0 ↔ u = t := h.eq_iff (Or.inl hu) (Or.inl ht)
  rw [hzero]
  cases s with
  | whole asc =>
    rw [if_pos (show (SortSpec.whole asc).args = [] from rfl)]
    cases asc with
    | true => exact hwhole
    | false =>
      show -compare u t = 0 ↔ _
      rw [Int.neg_eq_zero]
      exact hwhole
  | keys ks =>
    cases ks with
    | nil =>
      rw [if_pos (show (SortSpec.keys []).args = [] from rfl)]
      exact hwhole
    | cons k ks =>
      have hpos : (SortSpec.keys (k :: ks)).par.numPars > 0 := by
        show ((k :: ks).length : Int) > 0
        rw [length_cons]
        omega
      rw [if_neg (by nofun), parKeyCompare, if_pos hpos,
        keyCompare_eq_zero_iff h (fun k' hk' => Or.inr ⟨u, hu, k', hk', rfl⟩)
          (fun k' hk' => Or.inr ⟨t, ht, k', hk', rfl⟩)]
      show (∀ k' ∈ (k :: ks).map fun k' => (k'.1, castIndex k'.2), _) ↔ _
      rw [forall_mem_map]
      constructor
      · intro hall k' hk'
        rw [hpart u hu k' hk', hpart t ht k' hk', hall k' hk']
      · intro hall k' hk'
        have hsame := hall k' hk'
        rw [hpart u hu k' hk', hpart t ht k' hk'] at hsame
        exact Option.some.inj hsame

/-- Where the arguments are those that suit `parsort`, every table that the sorting routine may
return leads to the result that is specified. -/
theorem Suits.sorted {elim : Int} {table : List Term} (hsuits : Suits s elim l)
    (hl : ∀ t ∈ l, sortable s.par t)
    (hcast : ∀ k ∈ s.args, 1 ≤ castIndex k.2 ∧ castIndex k.2 ≤ 255)
    (h : Orders compare (Compared s l)) (hperm : table.Perm l)
    (hpairwise : table.Pairwise fun t u => parKeyCompare compare s.par t u ≤ 0) :
    Sorted compare s elim l
      (if elim.bmod (2 ^ 32) ≠ 0 then elimDupls compare table else table) := by
  have hpart : ∀ t ∈ l, ∀ k ∈ s.args, partAt k.2 t = some (sortArg (castIndex k.2) t) :=
    fun t ht k hk => partAt_arg hk hsuits.indices hsuits.unboxed hl ht
  have hmem : ∀ t ∈ table, t ∈ l := fun t ht => hperm.mem_iff.mp ht
  have hordered : table.Pairwise (s.Le compare) := by
    apply hpairwise.imp_of_mem
    intro t u ht hu hle
    exact (parKeyCompare_le_iff h hpart (hmem t ht) (hmem u hu)).mp hle
  have helim : elimDupls compare table = dropRepeats table :=
    elimDupls_eq h fun t ht => Or.inl (hmem t ht)
  rw [helim]
  refine ⟨(present_iff hcast hl).mpr ⟨hsuits.indices, hsuits.unboxed⟩, ?_, ?_, ?_⟩
  · split
    · exact hordered.sublist (dropRepeats_sublist table)
    · exact hordered
  · rintro rfl
    exact hperm
  · intro hne
    by_cases hbmod : elim.bmod (2 ^ 32) = 0
    · rw [if_neg (not_not.mpr hbmod)]
      exact ⟨hperm.nodup_iff.mpr (hsuits.cast hne hbmod), fun t => hperm.mem_iff⟩
    · rw [if_pos hbmod]
      refine ⟨nodup_dropRepeats_iff.mpr ?_, fun t => mem_dropRepeats.trans hperm.mem_iff⟩
      intro t u hsub
      by_contra hut
      -- a term that stands on both sides of another one is there twice, and has the same key
      have ht : t ∈ l := hmem t (hsub.subset mem_cons_self)
      have hu : u ∈ l := hmem u (hsub.subset (mem_cons_of_mem _ mem_cons_self))
      have hpair := hpairwise.sublist hsub
      simp only [pairwise_cons, mem_cons, not_mem_nil, or_false,
        forall_eq_or_imp, forall_eq] at hpair
      have hboth := (parKeyCompare_both_iff h hpart ht hu).mp ⟨hpair.1.1, hpair.2.1⟩
      split at hboth
      · exact hut hboth
      · next hargs =>
        have hcount : 2 ≤ l.count t := by
          rw [← hperm.count_eq]
          have hle := hsub.count_le t
          rw [count_cons_self, count_cons_of_ne hut, count_cons_self] at hle
          omega
        exact hut (hsuits.repeats hne hargs t ht hcount u hu hboth)

/-- What is specified holds, whatever routine sorts the terms, exactly for arguments that
suit `parsort`. -/
theorem parsort_sorted_iff (compare : Term → Term → Int) (spec : Term) (elim : Int)
    (l : List Term) (s : SortSpec) (hspec : SortSpec.read spec = some s)
    (hl : ∀ t ∈ l, sortable s.par t) (hcompare : Orders compare (Compared s l)) :
    (∀ qsort, Sorts qsort (parKeyCompare compare s.par) l →
      ∃ out, parsort compare qsort (.ofList l) spec elim = .ok out ∧
        Sorted compare s elim l out) ↔ Suits s elim l := by
  have hcast := SortSpec.read_range hspec
  have hpre := (compares_parKeyCompare hcompare).preorders
  constructor
  · intro hall
    obtain ⟨table, hperm, hpairwise⟩ := hpre.exists_pairwise
    obtain ⟨out, hout, hsorted⟩ := hall (fun _ _ => table) ⟨hperm, hpairwise⟩
    rw [parsort_accepted hspec hl ⟨hperm, hpairwise⟩] at hout
    have hten : s.args.length ≤ 10 := by
      by_contra hten
      rw [if_neg hten] at hout
      cases hout
    obtain ⟨hindices, hunboxed⟩ := (present_iff hcast hl).mp hsorted.present
    have hpart : ∀ t ∈ l, ∀ k ∈ s.args, partAt k.2 t = some (sortArg (castIndex k.2) t) :=
      fun t ht k hk => partAt_arg hk hindices hunboxed hl ht
    have hnodup : elim ≠ 0 → elim.bmod (2 ^ 32) = 0 → l.Nodup := by
      intro hne hbmod
      rw [if_pos hten, if_neg (not_not.mpr hbmod)] at hout
      have hall := (hsorted.once hne).1
      rw [← Except.ok.inj hout] at hall
      exact hperm.nodup_iff.mp hall
    refine ⟨hten, hindices, hunboxed, hnodup, ?_⟩
    intro hne hargs t ht hcount u hu hsame
    by_contra hut
    have hboth := (parKeyCompare_both_iff hcompare hpart ht hu).mpr
      (by rw [if_neg hargs]; exact hsame)
    -- the routine may put the other term between the two
    obtain ⟨table', hperm', hpairwise', hsub⟩ :=
      hpre.exists_apart hu hut hboth.1 hboth.2 hcount
    obtain ⟨out', hout', hsorted'⟩ := hall (fun _ _ => table') ⟨hperm', hpairwise'⟩
    rw [parsort_accepted hspec hl ⟨hperm', hpairwise'⟩, if_pos hten] at hout'
    by_cases hbmod : elim.bmod (2 ^ 32) = 0
    · have := nodup_iff_count.mp (hnodup hne hbmod) t
      omega
    · have honce := (hsorted'.once hne).1
      rw [← Except.ok.inj hout', if_pos hbmod,
        elimDupls_eq hcompare fun t ht => Or.inl (hperm'.mem_iff.mp ht)] at honce
      exact hut (nodup_dropRepeats_iff.mp honce t u hsub)
  · intro hsuits qsort hsorts
    rw [parsort_accepted hspec hl hsorts, if_pos hsuits.ten]
    exact ⟨_, rfl, hsuits.sorted hl hcast hcompare hsorts.perm hsorts.pairwise⟩

end Order

section Samples

/-- `compare` on small integers and structures of one functor. -/
def compareSample : Term → Term → Int
  | .int i, .int j => i - j
  | .int _, _ => -1
  | .cs p args, .cs q args' =>
    if h : p = q then
      ((List.ofFn fun i => compareSample (args i) (args' (i.cast (by rw [h])))).find?
        (· ≠ 0)).getD 0
    else 1
  | _, _ => 1

/-- The structure `f(I,J)`. -/
def pair (i j : Int) : Term :=
  .ofArgs (insertPsc ⟨[102], Heap.noNul_f⟩ 2 none two_le_maxArity) [.int i, .int j] rfl

/-- The specification `[asc(1)]`. -/
def firstArg : Term := .ofList [.ofArgs (insertPsc ascName 1 none one_le_maxArity) [.int 1] rfl]

theorem parsort_sorted_iff_pairs :
    (∀ qsort, Sorts qsort (parKeyCompare compareSample (SortSpec.keys [(true, 1)]).par)
        [pair 2 1, pair 1 1] →
      ∃ out, parsort compareSample qsort (.ofList [pair 2 1, pair 1 1]) firstArg 1 = .ok out ∧
        Sorted compareSample (.keys [(true, 1)]) 1 [pair 2 1, pair 1 1] out) ↔
      Suits (.keys [(true, 1)]) 1 [pair 2 1, pair 1 1] := by
  refine parsort_sorted_iff compareSample firstArg 1 [pair 2 1, pair 1 1] (.keys [(true, 1)])
    (by decide +kernel) (by decide +kernel) ?_
  have hmem : ∀ t, Compared (.keys [(true, 1)]) [pair 2 1, pair 1 1] t →
      t ∈ [pair 2 1, pair 1 1, .int 2, .int 1] := by
    rintro t (ht | ⟨u, hu, k, hk, rfl⟩)
    · exact mem_append_left [.int 2, .int 1] ht
    · have hargs : ∀ u ∈ [pair 2 1, pair 1 1], ∀ k ∈ (SortSpec.keys [(true, 1)]).par.pars,
          sortArg k.2 u ∈ [pair 2 1, pair 1 1, .int 2, .int 1] := by decide +kernel
      exact hargs u hu k hk
  have hall : ∀ a ∈ [pair 2 1, pair 1 1, .int 2, .int 1],
      ∀ b ∈ [pair 2 1, pair 1 1, .int 2, .int 1],
        (compareSample a b < 0 ↔ 0 < compareSample b a) ∧ (compareSample a b = 0 ↔ a = b) ∧
          ∀ d ∈ [pair 2 1, pair 1 1, .int 2, .int 1],
            compareSample a b ≤ 0 → compareSample b d ≤ 0 → compareSample a d ≤ 0 := by
    decide +kernel
  refine ⟨⟨fun ha hb => ?_, fun ha hb hd => ?_⟩, fun ha hb => ?_⟩
  · exact (hall _ (hmem _ ha) _ (hmem _ hb)).1
  · exact (hall _ (hmem _ ha) _ (hmem _ hb)).2.2 _ (hmem _ hd)
  · exact (hall _ (hmem _ ha) _ (hmem _ hb)).2.1

/-- The pair that is there twice is not dropped where the routine leaves another one with the same
first argument in between. -/
theorem pair_kept_twice :
    Sorts (fun _ l => l) (parKeyCompare compareSample ⟨1, [(true, 1)]⟩)
        [pair 1 1, pair 1 2, pair 1 1] ∧
      parsort compareSample (fun _ l => l) (.ofList [pair 1 1, pair 1 2, pair 1 1]) firstArg 1 =
        .ok [pair 1 1, pair 1 2, pair 1 1] ∧
      ¬ [pair 1 1, pair 1 2, pair 1 1].Nodup := by
  refine ⟨⟨List.Perm.refl _, ?_⟩, ?_, ?_⟩
  all_goals decide +kernel

end Samples

end XSBEngine.Builtins
