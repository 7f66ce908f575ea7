import XSBEngine.Builtins.Terms

/-!
# Parts of terms

`functor/3`, `arg/3` and `=../2`, `XSB/emu/std_pred_xsb_i.h:36–283`.
-/

namespace XSBEngine.Builtins

open List

open Heap (CString dotName)

/-- `xsb_isnumber`, where there are no floats but boxed ones. -/
def xsbIsnumber (t : Term) : Bool := t.isinteger

/-- `functor_builtin` where the first argument is free. A boxed number passes the test for numbers,
and `heapString` is the string at its address. -/
def makeFunctor (heapString : Term → CString) (mod : Option CString) (hreg : Nat)
    (term functor carity : Term) : Except Abort (List (Term × Term)) :=
  if functor.isstring || functor.isointeger || functor.isofloat then
    match carity with
    | .int value =>
      if h : 0 ≤ value ∧ value ≤ maxArity ∧ ¬ xsbIsnumber functor then
        if value = 0 then .ok [(functor, term)]
        else if value = 2 ∧ functor = .string dotName then
          .ok [(term, .list (.ref hreg) (.ref (hreg + 1)))]
        else
          let name :=
            match functor with
            | .string s => s
            | t => heapString t
          .ok [(term, .cs (insertPsc name value.toNat mod (by omega))
            fun i => .ref (hreg + 1 + i))]
      else if xsbIsnumber functor then .ok [(term, functor), (.int 0, carity)]
      else if value ≥ 0 then
        .error (.representationError "max_arity" "Arity of term" "functor/3" 3)
      else .error (.domainError "not_less_than_zero" carity "functor/3" 3)
    | carity =>
      if xsbIsnumber functor then .ok [(term, functor), (.int 0, carity)]
      else if carity.isref then .error (.instantiationError "functor/3" 3)
      else .error (.typeError "integer" carity "functor/3" 3)
  else if functor.isref then .error (.instantiationError "functor/3" 3)
  else .error (.typeError "atomic" functor "functor/3" 2)

/-- `functor_builtin`: the pairs of terms that are unified. -/
def functorBuiltin (heapString : Term → CString) (mod : Option CString) (hreg : Nat)
    (term functor carity : Term) : Except Abort (List (Term × Term)) :=
  if term.isref then makeFunctor heapString mod hreg term functor carity
  else
    match term with
    | .cs psc args =>
      if ¬ (Term.cs psc args).isboxedfloat ∧ ¬ (Term.cs psc args).isboxedinteger then
        .ok [(.string psc.name, functor), (.int psc.arity, carity)]
      else .ok [(term, functor), (.int 0, carity)]
    | .list _ _ => .ok [(.string dotName, functor), (.int 2, carity)]
    | term => .ok [(term, functor), (.int 0, carity)]

/-- `arg_builtin`: the terms that are unified, unless it fails. The index is cast to an `int`. -/
def argBuiltin (index term arg : Term) : Except Abort (Option (Term × Term)) :=
  match index with
  | .int i =>
    let disp := i.bmod (2 ^ 32)
    if disp > 0 then
      match term with
      | .ref _ => .error (.instantiationError "arg/3" 2)
      | .cs psc args =>
        if ¬ (Term.cs psc args).isboxedinteger ∧ ¬ (Term.cs psc args).isboxedfloat then
          if disp ≤ psc.arity then
            .ok (((Term.cs psc args).getStrArg disp.toNat).map fun t => (t, arg))
          else .ok none
        else .error (.typeError "compound" term "arg/3" 2)
      | .list head tail =>
        if disp = 1 ∨ disp = 2 then
          .ok (((Term.list head tail).getStrArg (disp - 1).toNat).map fun t => (t, arg))
        else .error (.typeError "compound" term "arg/3" 2)
      | term => .error (.typeError "compound" term "arg/3" 2)
    else if disp = 0 then .ok none
    else .error (.domainError "not_less_than_zero" index "arg/3" 2)
  | .ref _ => .error (.instantiationError "arg/3" 1)
  | index => .error (.typeError "integer" index "arg/3" 1)

/-- The elements of the list, and what follows the last one. -/
def spine : Term → List Term × Term
  | .list head tail => (head :: (spine tail).1, (spine tail).2)
  | t => ([], t)

/-- Where a list with an atom in front ends in a term. -/
def makeCompound (mod : Option CString) (name : CString) (olist ctail : Term) : Except Abort Term :=
  let args := (spine ctail).1
  if h : (spine ctail).2.isnil ∧ args.length ≤ maxArity then
    .ok (.ofArgs (insertPsc name args.length mod h.2) args rfl)
  else if args.length > maxArity then
    .error (.representationError "max_arity" "Length of list" "=../2" 2)
  else if (spine ctail).2.isref then .error (.instantiationError "=../2" 2)
  else .error (.typeError "list" olist "=../2" 2)

/-- The test for `list_construction`, and the list. -/
def listConstruction (name : CString) (ctail : Term) : Option Term :=
  match ctail with
  | .list head (.list tail rest) =>
    if name = dotName ∧ rest.isnil then some (.list head tail) else none
  | _ => none

/-- `univ_builtin` where the first argument is free: the term it is unified with. -/
def construct (mod : Option CString) (list : Term) : Except Abort Term :=
  match list with
  | .list chead ctail =>
    match chead with
    | .string name =>
      if ctail.isnil then .ok chead
      else
        match listConstruction name ctail with
        | some t => .ok t
        | none => makeCompound mod name list ctail
    | chead =>
      if ctail.isnil ∧ (chead.isofloat ∨ chead.isointeger) then .ok chead
      else if chead.isref then .error (.instantiationError "=../2" 2)
      else if ¬ ctail.isnil ∨ chead.isofloat ∨ chead.isointeger then
        .error (.typeError "atom" chead "=../2" 2)
      else .error (.typeError "atomic" chead "=../2" 2)
  | .ref _ => .error (.instantiationError "=../2" 2)
  | list =>
    if list.isnil then .error (.domainError "non_empty_list" list "=../2" 2)
    else .error (.typeError "list" list "=../2" 2)

/-- `new_list`. What is no atom, integer or structure is taken for a list, also an attributed
variable; `attrs` is the cell behind that of the variable. -/
def deconstruct (attrs : Nat → Term) (term : Term) : List Term :=
  if term.isstring ∨ term.isointeger then [term]
  else
    match term with
    | .cs psc args => .string psc.name :: List.ofFn args
    | .list head tail => [.string dotName, head, tail]
    | .attv a => [.string dotName, .ref a, attrs a]
    | _ => []

/-- `univ_builtin`: the terms that are unified. `notUnivListType` reads at the address of what is
no list. -/
def univBuiltin (notUnivListType : Term → Bool) (attrs : Nat → Term) (mod : Option CString)
    (term list : Term) : Except Abort (Term × Term) :=
  if term.isref then do
    let t ← construct mod list
    return (term, t)
  else if ¬ list.isref ∧ ¬ list.islist then
    if notUnivListType list then .error (.typeError "list" list "=../2" 2)
    else .error (.instantiationError "=../2" 2)
  else .ok (list, .ofList (deconstruct attrs term))

/-- The functor name, or the number itself, and the arguments. -/
def parts (t : Term) : List Term :=
  if t.isofloat ∨ t.isointeger then [t]
  else
    match t with
    | .cs psc args => .string psc.name :: List.ofFn args
    | .list head tail => [.string dotName, head, tail]
    | t => [t]

/-- A structure with arguments whose functor symbol belongs to the current module, and is not that
of lists. -/
def Rebuilt (mod : Option CString) (t : Term) : Prop :=
  match t with
  | .cs psc args => (Term.cs psc args).isointeger ∨
      psc.arity ≠ 0 ∧ psc.mod = mod ∧ ¬ (psc.name = dotName ∧ psc.arity = 2)
  | _ => True

/-- Terms that are no variables. -/
def Nonvar (t : Term) : Prop :=
  match t with
  | .ref _ | .attv _ => False
  | _ => True

section Parts

variable {T : Term} {mod : Option CString}

/-- What is neither a float nor a variable is taken apart as the parts say. -/
theorem deconstruct_parts (attrs : Nat → Term) (hvar : Nonvar T) (hfloat : ¬ T.isofloat) :
    deconstruct attrs T = parts T := by
  cases T with
  | ref a | attv a => exact absurd hvar id
  | string s | int i | list head tail => rfl
  | cs psc args =>
    have hstring : ¬ (Term.cs psc args).isstring = true := nofun
    simp only [deconstruct, parts, hstring, hfloat]

theorem spine_ofList (ts : List Term) : spine (.ofList ts) = (ts, .nil) := by
  induction ts with
  | nil => rfl
  | cons t ts ih => rw [Term.ofList, spine, ih]

theorem isnil_ofList {ts : List Term} : (Term.ofList ts).isnil ↔ ts = [] := by
  cases ts with
  | nil => exact ⟨fun _ => rfl, fun _ => rfl⟩
  | cons t ts =>
    constructor
    · intro h
      simp [Term.ofList, Term.isnil, Term.nil] at h
    · nofun

/-- The list of the arguments is not taken for one of a list, unless its name is that of lists and
there are two. -/
theorem listConstruction_none {name : CString} {ts : List Term}
    (h : ¬ (name = dotName ∧ ts.length = 2)) : listConstruction name (.ofList ts) = none := by
  match ts with
  | [] => rfl
  | [t] => rfl
  | [t, u] =>
    have hname : name ≠ dotName := fun heq => h ⟨heq, rfl⟩
    simp only [Term.ofList, listConstruction]
    rw [if_neg (fun hand => hname hand.1)]
  | t :: u :: v :: ts =>
    have hnil : ¬ (Term.ofList (v :: ts)).isnil := by
      rw [isnil_ofList]
      nofun
    simp only [Term.ofList, listConstruction]
    rw [if_neg (fun hand => hnil hand.2)]

/-- A structure is made again from its arguments. -/
theorem ofArgs_ofFn {psc p : Psc} (args : Fin psc.arity → Term) (hp : p = psc)
    (h : (List.ofFn args).length = p.arity) :
    Term.ofArgs p (List.ofFn args) h = .cs psc args := by
  subst hp
  rw [Term.ofArgs]
  apply congrArg
  funext i
  rw [get_eq_getElem, List.getElem_ofFn]
  rfl

/-- A term comes back from its parts. -/
theorem construct_parts (hvar : Nonvar T) (hfloat : ¬ T.isofloat) (hbuilt : Rebuilt mod T) :
    construct mod (.ofList (parts T)) = .ok T := by
  cases T with
  | ref a | attv a => exact absurd hvar id
  | string s | int i | list head tail => rfl
  | cs psc args =>
    by_cases hint : (Term.cs psc args).isointeger
    · have hparts : parts (.cs psc args) = [.cs psc args] := if_pos (Or.inr hint)
      rw [hparts]
      exact if_pos ⟨rfl, Or.inr hint⟩
    · obtain ⟨hzero, hmod, hlist⟩ := hbuilt.resolve_left hint
      have hparts : parts (.cs psc args) = .string psc.name :: List.ofFn args :=
        if_neg (not_or.mpr ⟨hfloat, hint⟩)
      have hnil : ¬ (Term.ofList (List.ofFn args)).isnil := by
        rw [isnil_ofList]
        intro hempty
        have hlength := congrArg List.length hempty
        rw [length_ofFn] at hlength
        exact hzero hlength
      have hle : (List.ofFn args).length ≤ maxArity := by
        rw [length_ofFn]
        exact psc.arity_le
      rw [hparts, Term.ofList]
      simp only [construct, hnil]
      rw [listConstruction_none (by rwa [length_ofFn])]
      simp only [makeCompound, spine_ofList]
      rw [dif_pos ⟨rfl, hle⟩]
      apply congrArg Except.ok
      apply ofArgs_ofFn
      exact Psc.ext rfl (length_ofFn ..) hmod.symm

/-- `functor/3` gives the first part, and how many others there are. -/
theorem functorBuiltin_parts (heapString : Term → CString) (mod : Option CString) (hreg : Nat)
    (hvar : Nonvar T) (functor carity : Term) :
    ∃ first rest, parts T = first :: rest ∧
      functorBuiltin heapString mod hreg T functor carity =
        .ok [(first, functor), (.int rest.length, carity)] := by
  cases T with
  | ref a | attv a => exact absurd hvar id
  | string s => exact ⟨.string s, [], rfl, rfl⟩
  | int i => exact ⟨.int i, [], rfl, rfl⟩
  | list head tail => exact ⟨.string dotName, [head, tail], rfl, rfl⟩
  | cs psc args =>
    have hfunctor : functorBuiltin heapString mod hreg (.cs psc args) functor carity =
        if ¬ (Term.cs psc args).isboxedfloat ∧ ¬ (Term.cs psc args).isboxedinteger then
          .ok [(.string psc.name, functor), (.int psc.arity, carity)]
        else .ok [(.cs psc args, functor), (.int 0, carity)] := rfl
    have hinteger : (Term.cs psc args).isointeger = (Term.cs psc args).isboxedinteger := rfl
    rw [hfunctor]
    by_cases hboxed : (Term.cs psc args).isofloat ∨ (Term.cs psc args).isointeger
    · refine ⟨.cs psc args, [], if_pos hboxed, if_neg ?_⟩
      rw [← not_or, not_not]
      exact hboxed
    · refine ⟨.string psc.name, List.ofFn args, if_neg hboxed, ?_⟩
      rw [length_ofFn]
      exact if_pos (not_or.mp hboxed)

/-- `arg/3` with an index below 1. -/
theorem argBuiltin_low {I : Int} (hcast : I.bmod (2 ^ 32) = I) (hlt : I < 1) (arg : Term)
    (r : Term × Term) : argBuiltin (.int I) T arg ≠ .ok (some r) := by
  have hle : ¬ I > 0 := by omega
  cases T
  all_goals
    simp only [argBuiltin, hcast, if_neg hle]
    split
    all_goals
      intro h
      cases h

/-- `arg/3` with an index from 1 on gives the part of this number, and no other term where there
is none. -/
theorem argBuiltin_part {I : Int} (hcast : I.bmod (2 ^ 32) = I) (hpos : 1 ≤ I) (hvar : Nonvar T)
    (arg : Term) :
    (∀ t, (parts T)[I.toNat]? = some t → argBuiltin (.int I) T arg = .ok (some (t, arg))) ∧
      ((parts T)[I.toNat]? = none → ∀ r, argBuiltin (.int I) T arg ≠ .ok (some r)) := by
  obtain ⟨k, rfl⟩ : ∃ k : Nat, I = k + 1 := ⟨(I - 1).toNat, by omega⟩
  have hnat : ((k : Int) + 1).toNat = k + 1 := by omega
  have herror : ∀ t : Term, argBuiltin (.int (k + 1)) T arg = .error (.typeError "compound" t
      "arg/3" 2) → ∀ r, argBuiltin (.int (k + 1)) T arg ≠ .ok (some r) := by
    intro t heq r h
    rw [heq] at h
    cases h
  have hsingle : ∀ t, parts T = [t] → (parts T)[k + 1]? = none := by
    intro t heq
    rw [heq]
    rfl
  rw [hnat]
  have hgt : (k : Int) + 1 > 0 := by omega
  cases T with
  | ref a | attv a => exact absurd hvar id
  | string s =>
    refine ⟨nofun, fun _ => herror (.string s) ?_⟩
    simp only [argBuiltin, hcast, if_pos hgt]
  | int i =>
    refine ⟨nofun, fun _ => herror (.int i) ?_⟩
    simp only [argBuiltin, hcast, if_pos hgt]
  | list head tail =>
    have hparts : parts (.list head tail) = [.string dotName, head, tail] := rfl
    have hlist : argBuiltin (.int (k + 1)) (.list head tail) arg =
        if (k : Int) + 1 = 1 ∨ (k : Int) + 1 = 2 then
          .ok (((Term.list head tail).getStrArg k).map fun t => (t, arg))
        else .error (.typeError "compound" (.list head tail) "arg/3" 2) := by
      simp only [argBuiltin, hcast, if_pos hgt, Int.add_sub_cancel, Int.toNat_natCast]
    rw [hparts, List.getElem?_cons_succ]
    rcases k with _ | _ | k
    · rw [hlist, if_pos (by omega)]
      exact ⟨fun t h => (by cases h; rfl), nofun⟩
    · rw [hlist, if_pos (by omega)]
      exact ⟨fun t h => (by cases h; rfl), nofun⟩
    · refine ⟨nofun, fun _ => herror (.list head tail) ?_⟩
      rw [hlist, if_neg (by omega)]
  | cs psc args =>
    by_cases hboxed : (Term.cs psc args).isofloat ∨ (Term.cs psc args).isointeger
    · have hparts : parts (.cs psc args) = [.cs psc args] := if_pos hboxed
      have hnone := hsingle _ hparts
      refine ⟨fun t h => (by rw [hnone] at h; cases h), fun _ => herror (.cs psc args) ?_⟩
      simp only [argBuiltin, hcast, if_pos hgt]
      apply if_neg
      rw [← not_or, not_not]
      exact hboxed.symm
    · have hparts : parts (.cs psc args) = .string psc.name :: List.ofFn args := if_neg hboxed
      have htest : ¬ (Term.cs psc args).isboxedinteger ∧ ¬ (Term.cs psc args).isboxedfloat :=
        (not_or.mp hboxed).symm
      rw [hparts, List.getElem?_cons_succ]
      simp only [argBuiltin, hcast, if_pos hgt, if_pos htest]
      by_cases hle : k < psc.arity
      · have harg : (Term.cs psc args).getStrArg (k + 1) = some (args ⟨k, hle⟩) :=
          dif_pos ⟨by omega, by omega⟩
        rw [if_pos (by omega), hnat, harg, List.getElem?_ofFn, dif_pos hle]
        exact ⟨fun t h => (by cases h; rfl), nofun⟩
      · rw [if_neg (by omega), List.getElem?_ofFn, dif_neg hle]
        exact ⟨nofun, fun _ r h => (by cases h)⟩

/-- No term has as many parts as an index that does not fit in a cell. -/
theorem length_parts_le (T : Term) : (parts T).length ≤ 2 ^ 17 := by
  unfold parts
  split
  · show 1 ≤ _
    omega
  · split
    · next psc args _ =>
      have hle := psc.arity_le
      rw [length_cons, length_ofFn]
      rw [maxArity] at hle
      omega
    · show 3 ≤ _
      omega
    · show 1 ≤ _
      omega

/-- The cast to `int` leaves the index alone, or the index does not fit in a cell. -/
def KeepsIndex (I : Int) : Prop := Term.intOverflow I ∨ -2 ^ 31 ≤ I ∧ I < 2 ^ 31

/-- `arg/3` gives the part that the index says, or none. -/
theorem argBuiltin_oint {I : Int} (hkeeps : KeepsIndex I) (hvar : Nonvar T) (arg : Term) :
    (∀ t, 1 ≤ I → (parts T)[I.toNat]? = some t →
      argBuiltin (.oint I) T arg = .ok (some (t, arg))) ∧
    (I < 1 ∨ (parts T)[I.toNat]? = none → ∀ r, argBuiltin (.oint I) T arg ≠ .ok (some r)) := by
  by_cases hover : Term.intOverflow I
  · have hoint : Term.oint I = .boxedint I := if_pos hover
    rw [hoint]
    refine ⟨?_, fun _ r => nofun⟩
    intro t hpos hpart
    have hlength := length_parts_le T
    obtain ⟨hlt, -⟩ := List.getElem?_eq_some_iff.mp hpart
    rw [Term.intOverflow] at hover
    omega
  · have hoint : Term.oint I = .int I := if_neg hover
    have hrange := hkeeps.resolve_left hover
    have hcast : I.bmod (2 ^ 32) = I := Int.bmod_eq_of_le (by omega) (by omega)
    rw [hoint]
    by_cases hpos : 1 ≤ I
    · obtain ⟨hsome, hnone⟩ := argBuiltin_part hcast hpos hvar arg
      exact ⟨fun t _ => hsome t, fun h => hnone (h.resolve_left (by omega))⟩
    · exact ⟨fun t h => absurd h hpos, fun _ => argBuiltin_low hcast (by omega) arg⟩

end Parts

/-- For a term that is no variable: unless it is a float, `=../2` gives its parts, and from them the
term again if it is `Rebuilt`; `functor/3` gives the first part and the number of the others; and
`arg/3` gives the part that an index numbers, where its cast leaves the index alone, and never
another one. -/
theorem univ_functor_arg (heapString : Term → CString) (notUnivListType : Term → Bool)
    (attrs : Nat → Term) (mod : Option CString) (hreg : Nat) (T : Term) (hvar : Nonvar T) :
    (¬ T.isofloat → ∀ x y,
      univBuiltin notUnivListType attrs mod T (.ref y) = .ok (.ref y, .ofList (parts T)) ∧
        (Rebuilt mod T →
          univBuiltin notUnivListType attrs mod (.ref x) (.ofList (parts T)) =
            .ok (.ref x, T))) ∧
    ∃ first rest, parts T = first :: rest ∧
      (∀ functor carity, functorBuiltin heapString mod hreg T functor carity =
        .ok [(first, functor), (.int rest.length, carity)]) ∧
      ∀ I, KeepsIndex I → ∀ arg,
        (∀ t, 1 ≤ I → (parts T)[I.toNat]? = some t →
          argBuiltin (.oint I) T arg = .ok (some (t, arg))) ∧
        (I < 1 ∨ I > rest.length → ∀ r, argBuiltin (.oint I) T arg ≠ .ok (some r)) := by
  constructor
  · intro hfloat x y
    constructor
    · have href : ¬ T.isref = true := by
        cases T with
        | ref a => exact absurd hvar id
        | attv a | string s | int i | list head tail | cs psc args => nofun
      rw [univBuiltin, if_neg href, if_neg (fun h => h.1 rfl),
        deconstruct_parts attrs hvar hfloat]
    · intro hbuilt
      rw [univBuiltin, if_pos (show (Term.ref x).isref from rfl),
        construct_parts hvar hfloat hbuilt]
      rfl
  · obtain ⟨first, rest, hparts, -⟩ :=
      functorBuiltin_parts heapString mod hreg hvar .nil .nil
    refine ⟨first, rest, hparts, ?_, ?_⟩
    · intro functor carity
      obtain ⟨first', rest', hparts', hfunctor⟩ :=
        functorBuiltin_parts heapString mod hreg hvar functor carity
      obtain ⟨rfl, rfl⟩ := List.cons.inj (hparts.symm.trans hparts')
      exact hfunctor
    · intro I hkeeps arg
      obtain ⟨hsome, hnone⟩ := argBuiltin_oint hkeeps hvar arg
      refine ⟨hsome, fun h => hnone (h.imp_right fun hgt => ?_)⟩
      rw [hparts]
      apply List.getElem?_eq_none
      rw [length_cons]
      omega

/-- The structure `f(3)`. -/
def unary : Term := .ofArgs (insertPsc ⟨[102], Heap.noNul_f⟩ 1 none one_le_maxArity) [.int 3] rfl

theorem univ_functor_arg_unary :
    univBuiltin (fun _ => true) .ref none unary (.ref 2) =
      .ok (.ref 2, .ofList [.string ⟨[102], by decide⟩, .int 3]) :=
  (((univ_functor_arg (fun _ => ⟨[], by decide⟩) (fun _ => true) .ref none 4 unary trivial).1
    nofun 1 2).1).trans rfl

/-- The structure without arguments `f()` has the parts of the atom `f`, from which that atom
is made. -/
theorem nullary_not_rebuilt :
    ∃ T : Term, T = .ofArgs (insertPsc ⟨[102], by decide⟩ 0 none (by decide)) [] rfl ∧
      univBuiltin (fun _ => true) .ref none T (.ref 2) =
        .ok (.ref 2, .ofList [.string ⟨[102], by decide⟩]) ∧
      univBuiltin (fun _ => true) .ref none (.ref 1) (.ofList [.string ⟨[102], by decide⟩]) ≠
        .ok (.ref 1, T) := by
  refine ⟨_, rfl, ?_, ?_⟩
  all_goals decide +kernel

end XSBEngine.Builtins
