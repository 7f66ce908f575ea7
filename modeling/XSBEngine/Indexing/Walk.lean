import XSBEngine.Arith.Instructions
import XSBEngine.Indexing.Hash
import XSBEngine.Library.Trees

/-!
# The symbols that indexes inspect

Which terms heads and arguments of calls are, and what the walks of `hash_val`, `switchonbound`
and `switchon3bound` see of them.
-/

namespace XSBEngine.Indexing

open Heap List Option PrefixTerms

/-! ### Terms -/

/-- Function symbols. A float is in a cell or boxed. -/
inductive Symbol where
  | int (i : Int)
  | float (x : Float64)
  | boxedFloat (x : Float64)
  | string (s : CString)
  | list
  | functor (p : Psc)
deriving DecidableEq

def Symbol.rank : Symbol → Nat
  | .list => 2
  | .functor p => p.arity
  | _ => 0

/-- A structure without arguments. -/
def Symbol.isEmpty : Symbol → Bool
  | .functor p => p.arity = 0
  | _ => false

/-- What a cell dereferences to, in a number of steps. -/
def DerefsTo (mem : Nat → Cell) (c v : Cell) : Prop := ∃ N, ∀ n ≥ N, deref mem n c = some v

/-- The first word of a boxed float. -/
def floatHeader (x : Float64) : BitVec 64 :=
  BitVec.ofInt 64 idBoxedFloat <<< 16 ||| (x >>> 48 &&& 0xffff)

/-- The root of a dereferenced term and the cells of its arguments. -/
inductive Root (mem : Nat → Cell) : Cell → Symbol → List Cell → Prop where
  | int (i : Int) : Root mem (.int i) (.int i) []
  | boxedInt {a : Nat} {id hi lo : Int} : mem a = .functor boxPsc → mem (a + 1) = .int id →
      id >>> (16 : Nat) = idBoxedInt → mem (a + 2) = .int hi → mem (a + 3) = .int lo →
      Root mem (.cs a) (.int (boxedInt hi lo)) []
  | float (x : Float64) : Root mem (.float x) (.float x) []
  | boxedFloat {a : Nat} {x : Float64} : mem a = .functor boxPsc →
      mem (a + 1) = .int (floatHeader x).toNat → mem (a + 2) = .int (x >>> 24 &&& 0xffffff).toNat →
      mem (a + 3) = .int (x &&& 0xffffff).toNat → Root mem (.cs a) (.boxedFloat x) []
  | string (s : CString) : Root mem (.string s) (.string s) []
  | list (a : Nat) : Root mem (.list a) .list [mem a, mem (a + 1)]
  | struct {a : Nat} {p : Psc} : mem a = .functor p → p ≠ boxPsc →
      Root mem (.cs a) (.functor p) ((List.range p.arity).map fun i => mem (a + 1 + i))

/-- The terms that cells hold, for the addresses of the variables. -/
inductive Holds {V : Type*} (mem : Nat → Cell) (addr : V → Nat) :
    List Cell → Tuple Symbol V → Prop where
  | nil : Holds mem addr [] .nil
  | var {c : Cell} {cs : List Cell} {v : V} {t : Tuple Symbol V} :
      DerefsTo mem c (.ref (addr v)) ∨ DerefsTo mem c (.attv (addr v)) → Holds mem addr cs t →
      Holds mem addr (c :: cs) (.var v t)
  | app {c d : Cell} {cs args : List Cell} {f : Symbol} {targs t : Tuple Symbol V} :
      DerefsTo mem c d → Root mem d f args → Holds mem addr args targs → Holds mem addr cs t →
      Holds mem addr (c :: cs) (.app f targs t)

variable {V : Type*} {mem : Nat → Cell} {addr : V → Nat} {c d : Cell} {cs cs' args : List Cell}
  {f : Symbol} {t t' : Tuple Symbol V}

theorem Holds.length (h : Holds mem addr cs t) : t.length = cs.length := by
  induction h with
  | nil => rfl
  | var _ _ ih | app _ _ _ _ _ ih => exact congrArg Nat.succ ih

theorem Root.rank (h : Root mem d f args) : args.length = f.rank := by
  cases h with
  | struct => rw [length_map, length_range]; rfl
  | _ => rfl

theorem Holds.ranked (h : Holds mem addr cs t) : t.Ranked Symbol.rank := by
  induction h with
  | nil => trivial
  | var _ _ ih => exact ih
  | app _ hr hargs _ ihargs ih => exact ⟨hargs.length.trans hr.rank, ihargs, ih⟩

theorem Holds.append (h : Holds mem addr cs t) (h' : Holds mem addr cs' t') :
    Holds mem addr (cs ++ cs') (t.append t') := by
  induction h with
  | nil => exact h'
  | var hd _ ih => exact .var hd ih
  | app hd hr hargs _ _ ih => exact .app hd hr hargs ih

theorem Holds.nth (h : Holds mem addr cs t) {i : Nat} (hi : cs[i]? = some c) :
    Holds mem addr [c] (t.nth i) := by
  induction h generalizing i with
  | nil => cases hi
  | var hd _ ih =>
    cases i with
    | zero => cases hi; exact .var hd .nil
    | succ i => exact ih hi
  | app hd hr hargs _ _ ih =>
    cases i with
    | zero => cases hi; exact .app hd hr hargs .nil
    | succ i => exact ih hi

/-! ### Words of symbols -/

/-- The words by which symbols are hashed, where the words of strings, of PSC records, of lists and
of floats in cells are not known. -/
inductive Key where
  | word (w : BitVec 64)
  | float (x : Float64)
  | string (s : CString)
  | list
  | functor (p : Psc)
deriving DecidableEq

def Symbol.key : Symbol → Key
  | .int i => .word (.ofInt 64 i)
  | .float x => .float x
  | .boxedFloat x => .word (floatHash x)
  | .string s => .string s
  | .list => .list
  | .functor p => .functor p

def HashWords.word (W : HashWords) : Key → BitVec 64
  | .word w => w
  | .float x => W.float x
  | .string s => W.string s
  | .list => W.listPscPair
  | .functor p => W.psc p

theorem shift_floatHeader (x : Float64) :
    ((floatHeader x).toNat : Int) >>> (16 : Nat) = idBoxedFloat := by
  have hlt := x.isLt
  rw [floatHeader, Arith.toNat_floatHeader, Int.shiftRight_eq_div_pow, idBoxedFloat]
  omega

theorem Root.struct_kind {a : Nat} {p : Psc} (h : mem a = .functor p) (hp : p ≠ boxPsc) :
    isboxedinteger mem (.cs a) = false ∧ isboxedfloat mem (.cs a) = false := by
  have hbox : isboxed mem (.cs a) = false := by
    rw [isboxed, h]
    exact decide_eq_false fun heq => hp (Cell.functor.inj heq)
  rw [isboxedinteger, isboxedfloat, hbox, Bool.false_and, Bool.false_and]
  exact ⟨rfl, rfl⟩

theorem Root.boxed_kind {a : Nat} {id : Int} (h : mem a = .functor boxPsc)
    (hid : mem (a + 1) = .int id) :
    isboxedinteger mem (.cs a) = decide (id >>> (16 : Nat) = idBoxedInt) ∧
      isboxedfloat mem (.cs a) = decide (id >>> (16 : Nat) = idBoxedFloat) := by
  simp only [isboxedinteger, isboxedfloat, isboxed, boxHasId, h, hid, intVal]
  exact ⟨rfl, rfl⟩

theorem Root.structHashValue (W : HashWords) {a : Nat} (h : Root mem (.cs a) f args) :
    structHashValue W mem a = some (W.word f.key) := by
  cases h with
  | boxedInt hbox hid hint hhi hlo =>
    obtain ⟨hi, -⟩ := Root.boxed_kind hbox hid
    rw [Indexing.structHashValue, hi, hint, if_pos (decide_eq_true rfl), ointVal, hhi, hlo]
    rfl
  | @boxedFloat _ x hbox hid hmiddle hlow =>
    obtain ⟨hi, hf⟩ := Root.boxed_kind hbox hid
    rw [Indexing.structHashValue, hi, hf, shift_floatHeader, if_neg (by decide),
      if_pos (decide_eq_true rfl), boxedFloatHash, hid, hmiddle, hlow]
    simp only [intVal, Arith.ofInt_toNat]
    rfl
  | struct hp hne =>
    obtain ⟨hi, hf⟩ := Root.struct_kind hp hne
    rw [Indexing.structHashValue, hi, hf, if_neg Bool.false_ne_true, if_neg Bool.false_ne_true,
      getStrPsc, hp]
    rfl

theorem Root.valToHash (W : HashWords) (h : Root mem d f args) :
    valToHash W mem d = some (W.word f.key) := by
  cases h with
  | boxedInt hbox hid hint hhi hlo =>
    exact Root.structHashValue W (Root.boxedInt hbox hid hint hhi hlo)
  | boxedFloat hbox hid hmiddle hlow =>
    exact Root.structHashValue W (Root.boxedFloat hbox hid hmiddle hlow)
  | struct hp hne => exact Root.structHashValue W (Root.struct hp hne)
  | _ => rfl

theorem Root.bound (h : Root mem d f args) : isUnbound d = false := by
  cases h <;> rfl

/-! ### Walks over terms -/

/-- What a walk comes to: symbols, a variable, or a cell that does not belong to the term. -/
inductive Seen where
  | all (l : List Symbol)
  | free
  | stray
deriving DecidableEq

def Seen.cons (f : Symbol) : Seen → Seen
  | .all l => .all (f :: l)
  | .free => .free
  | .stray => .stray

/-- A walk and then another one, unless the first ends early. -/
def Seen.then : Seen → Seen → Seen
  | .all l, .all l' => .all (l ++ l')
  | .all _, .free => .free
  | .all _, .stray => .stray
  | .free, _ => .free
  | .stray, _ => .stray

/-- The first `k` symbols in prefix notation. After a structure without arguments, a walk goes on
with the cell that follows it. -/
def starSeen {V : Type*} : Nat → List (Symbol ⊕ V) → Seen
  | 0, _ => .all []
  | _ + 1, [] => .all []
  | _ + 1, .inr _ :: _ => .free
  | k + 1, .inl f :: l => if f.isEmpty ∧ k ≠ 0 then .stray else (starSeen k l).cons f

/-- Words are added to a sum. -/
def addAll (W : HashWords) (size : Nat) (hashval : BitVec 64) (l : List Key) : BitVec 64 :=
  l.foldl (fun hashval x => addHash hashval (ihash (W.word x) size)) hashval

/-- A PSC record follows each structure without arguments. -/
def StrayFunctors (mem : Nat → Cell) : Prop :=
  ∀ a p, mem a = .functor p → p.arity = 0 → ∃ q, mem (a + 1) = .functor q

/-- What a walk computes from what it sees, where something may be known of the cells that do not
belong to the term. -/
def Computes (W : HashWords) (known : Prop) (size : Nat) (hashval : BitVec 64) :
    Seen → Option (Option (BitVec 64)) → Prop
  | .all l, o => o = some (some (addAll W size hashval (l.map Symbol.key)))
  | .free, o => o = some none
  | .stray, o => known → o = none

/-- The cells that wait on the stack of a walk. -/
def pending (mem : Nat → Cell) (stk : List (Nat × Nat)) : List Cell :=
  stk.flatMap fun p => (List.range p.2).map fun i => mem (p.1 + i)

theorem pending_next {a left : Nat} (stk : List (Nat × Nat)) (hleft : 0 < left) :
    pending mem ((a, left) :: stk) =
      mem a :: pending mem (if left ≤ 1 then stk else (a + 1, left - 1) :: stk) := by
  obtain ⟨left, rfl⟩ := Nat.exists_eq_add_of_le' hleft
  have hcells : (List.range (left + 1)).map (fun i => mem (a + i)) =
      mem a :: (List.range left).map fun i => mem (a + 1 + i) := by
    rw [range_succ_eq_map, map_cons, List.map_map]
    congr 1
    apply map_congr_left
    intro i _
    show mem (a + (i + 1)) = _
    congr 1
    omega
  rw [pending, flatMap_cons, hcells]
  split
  next hle =>
    have hzero : left = 0 := by omega
    rw [hzero]
    rfl
  next => rfl

/-- The arguments of a structure or a list wait on the stack. -/
theorem Root.push (h : Root mem d f args) (hf : f.isEmpty = false) (stk : List (Nat × Nat)) :
    pending mem (pushArgs mem d stk) = args ++ pending mem stk ∧
      ∀ p ∈ pushArgs mem d stk, p ∈ stk ∨ 0 < p.2 := by
  cases h with
  | list a =>
    refine ⟨rfl, fun p hp => ?_⟩
    rcases mem_cons.mp hp with rfl | hp
    · exact .inr Nat.two_pos
    · exact .inl hp
  | boxedInt hbox hid hint =>
    obtain ⟨hi, -⟩ := Root.boxed_kind hbox hid
    rw [pushArgs, hi, hint, decide_eq_true rfl, Bool.true_or, if_pos rfl]
    exact ⟨rfl, fun p hp => .inl hp⟩
  | boxedFloat hbox hid =>
    obtain ⟨-, hfl⟩ := Root.boxed_kind hbox hid
    rw [pushArgs, hfl, shift_floatHeader, decide_eq_true rfl, Bool.or_true, if_pos rfl]
    exact ⟨rfl, fun p hp => .inl hp⟩
  | @struct a p hp hne =>
    obtain ⟨hi, hfl⟩ := Root.struct_kind hp hne
    rw [pushArgs, hi, hfl, Bool.or_false, if_neg Bool.false_ne_true, getStrPsc, hp]
    refine ⟨rfl, fun q hq => ?_⟩
    rcases mem_cons.mp hq with rfl | hq
    · right
      exact Nat.pos_of_ne_zero (of_decide_eq_false hf)
    · exact .inl hq
  | _ => exact ⟨rfl, fun p hp => .inl hp⟩

/-- After a structure without arguments the walk goes on with the next cell. -/
theorem Root.push_empty (h : Root mem d f args) (hf : f.isEmpty) (stk : List (Nat × Nat)) :
    ∃ a p, mem a = .functor p ∧ p.arity = 0 ∧ pushArgs mem d stk = (a + 1, 0) :: stk := by
  cases h with
  | @struct a p hp hne =>
    obtain ⟨hi, hfl⟩ := Root.struct_kind hp hne
    have harity : p.arity = 0 := of_decide_eq_true hf
    refine ⟨a, p, hp, harity, ?_⟩
    rw [pushArgs, hi, hfl, Bool.or_false, if_neg Bool.false_ne_true, getStrPsc, hp]
    show (a + 1, p.arity) :: stk = _
    rw [harity]
  | _ => exact absurd hf Bool.false_ne_true

theorem starLoop_functor (W : HashWords) {n size k : Nat} {q : Psc} (stk : List (Nat × Nat))
    (hashval : BitVec 64) : starLoop W mem n size (k + 1) (.functor q) stk hashval = none := by
  cases n <;> rfl

/-- The walk of a star index sees the first symbols of the cells before it. -/
theorem starLoop_spec (W : HashWords) (size k : Nat) {stk : List (Nat × Nat)}
    (h : Holds mem addr (c :: pending mem stk) t) (hpos : ∀ p ∈ stk, 0 < p.2)
    (hashval : BitVec 64) :
    ∃ N, ∀ n ≥ N, Computes W (StrayFunctors mem) size hashval (starSeen k t.tokens)
      (starLoop W mem n size k c stk hashval) := by
  induction k generalizing c stk hashval t with
  | zero => exact ⟨0, fun _ _ => rfl⟩
  | succ k ih =>
    cases h with
    | var hd =>
      rcases hd with ⟨N, hN⟩ | ⟨N, hN⟩
      · refine ⟨N, fun n hn => ?_⟩
        rw [starLoop, hN n hn]
        rfl
      · refine ⟨N, fun n hn => ?_⟩
        rw [starLoop, hN n hn]
        rfl
    | @app _ d _ args f targs t' hd hr hargs hrest =>
      obtain ⟨N, hN⟩ := hd
      have hend : ∀ n ≥ N, pushArgs mem d stk = [] → starLoop W mem n size (k + 1) c stk hashval =
          some (some (addHash hashval (ihash (W.word f.key) size))) := by
        intro n hn hpush
        simp only [starLoop, hN n hn, hr.valToHash W, hr.bound, bind_eq_bind,
          bind_some, Bool.false_eq_true, if_false, hpush]
      have hnext : ∀ n ≥ N, ∀ {a left stk'}, pushArgs mem d stk = (a, left) :: stk' →
          starLoop W mem n size (k + 1) c stk hashval =
            starLoop W mem n size k (mem a) (if left ≤ 1 then stk' else (a + 1, left - 1) :: stk')
              (addHash hashval (ihash (W.word f.key) size)) := by
        intro n hn a left stk' hpush
        simp only [starLoop, hN n hn, hr.valToHash W, hr.bound, bind_eq_bind,
          bind_some, Bool.false_eq_true, if_false, hpush]
      cases hempty : f.isEmpty with
      | true =>
        obtain ⟨a, p, hp, harity, hpush⟩ := hr.push_empty hempty stk
        refine ⟨N, fun n hn => ?_⟩
        rw [hnext n hn hpush]
        cases k with
        | zero =>
          rw [Tuple.tokens, starSeen, if_neg (fun h => h.2 rfl)]
          rfl
        | succ k =>
          rw [Tuple.tokens, starSeen, if_pos ⟨hempty, Nat.succ_ne_zero k⟩]
          intro hstray
          obtain ⟨q, hq⟩ := hstray a p hp harity
          show starLoop W mem n size (k + 1) (mem (a + 1)) _ _ = none
          rw [hq]
          exact starLoop_functor W _ _
      | false =>
        obtain ⟨hpending, hpos'⟩ := hr.push hempty stk
        have hseen : starSeen (k + 1) (Tuple.app f targs t').tokens =
            (starSeen k (targs.append t').tokens).cons f := by
          rw [Tuple.tokens, starSeen, if_neg (fun h => by simp [hempty] at h),
            Tuple.tokens_append]
        have hall := hargs.append hrest
        rw [← hpending] at hall
        rw [hseen]
        cases hpush : pushArgs mem d stk with
        | nil =>
          rw [hpush] at hall
          refine ⟨N, fun n hn => ?_⟩
          rw [hend n hn hpush]
          cases hnil : targs.append t' with
          | nil => cases k <;> rfl
          | var v t | app g u t => rw [hnil] at hall; cases hall
        | cons p stk' =>
          obtain ⟨a, left⟩ := p
          rw [hpush] at hall hpos'
          have hpos1 : ∀ p ∈ (a, left) :: stk', 0 < p.2 := by
            intro p hp
            exact (hpos' p hp).elim (hpos p) id
          rw [pending_next _ (hpos1 _ mem_cons_self)] at hall
          have hpos2 : ∀ p ∈ (if left ≤ 1 then stk' else (a + 1, left - 1) :: stk'), 0 < p.2 := by
            split
            · exact fun p hp => hpos1 p (mem_cons_of_mem _ hp)
            · intro p hp
              rcases mem_cons.mp hp with rfl | hp
              · show 0 < left - 1
                omega
              · exact hpos1 p (mem_cons_of_mem _ hp)
          obtain ⟨M, hM⟩ := ih hall hpos2 (addHash hashval (ihash (W.word f.key) size))
          refine ⟨N + M, fun n hn => ?_⟩
          have hcode := hM n (by omega)
          rw [hnext n (by omega) hpush]
          cases hs : starSeen k (targs.append t').tokens with
          | all l | free | stray => rw [hs] at hcode; exact hcode

/-! ### Walks over the positions of an index -/

/-- What is seen of the arguments of a head by one of the bytes of a joint index. -/
def byteSeen {V : Type*} (t : Tuple Symbol V) (b : Nat) : Seen :=
  if b = 0 then .all []
  else if b ≤ 0x80 then starSeen 1 (t.nth (b - 1)).tokens
  else starSeen maxToIndex (t.nth (b - 0x80 - 1)).tokens

/-- What is seen by all bytes. -/
def bytesSeen (seen : Nat → Seen) : List Nat → Seen
  | [] => .all []
  | b :: bs => (seen b).then (bytesSeen seen bs)

/-- What `hash_val` sees of the arguments of a head. -/
def headSeen {V : Type*} (ind : Nat) (t : Tuple Symbol V) : Seen :=
  if ind ≤ 0xff then starSeen 1 (t.nth (ind - 1)).tokens
  else bytesSeen (byteSeen t) (indexBytes ind)

/-- What the instructions see of the arguments of a call. For the argument 128 of a joint index
they take register 0. -/
def callSeen {V : Type*} (ind : Nat) (t : Tuple Symbol V) : Seen :=
  if ind ≤ 0xff then starSeen 1 (t.nth (ind - 1)).tokens
  else bytesSeen (fun b => if b = 0x80 then .stray else byteSeen t b) (indexBytes ind)

/-- A byte of a joint index is for an argument, or for none. -/
def ByteOK (arity b : Nat) : Prop :=
  b < 2 ^ 8 ∧ (b ≤ 0x80 ∧ b ≤ arity ∨ 0x80 < b ∧ b - 0x80 ≤ arity)

variable {W : HashWords} {size : Nat} {hashval : BitVec 64} {known : Prop} {s : Seen}
  {o : Option (Option (BitVec 64))}

/-- The cell of an argument and what is seen of it. -/
theorem Holds.plain (h : Holds mem addr [c] t) :
    ∃ N d, (∀ n ≥ N, deref mem n c = some d) ∧
      (starSeen 1 t.tokens = .free ∧ (∃ a, d = .ref a ∨ d = .attv a) ∨
        ∃ f args, starSeen 1 t.tokens = .all [f] ∧ Root mem d f args) := by
  cases h with
  | var hd =>
    rcases hd with ⟨N, hN⟩ | ⟨N, hN⟩
    · exact ⟨N, _, hN, .inl ⟨rfl, _, .inl rfl⟩⟩
    · exact ⟨N, _, hN, .inl ⟨rfl, _, .inr rfl⟩⟩
  | @app _ d _ args f _ _ hd hr =>
    obtain ⟨N, hN⟩ := hd
    have hseen : ∀ l : List (Symbol ⊕ V), starSeen 1 (.inl f :: l) = .all [f] := by
      intro l
      rw [starSeen, if_neg (fun h => h.2 rfl)]
      rfl
    exact ⟨N, d, hN, .inr ⟨f, args, hseen _, hr⟩⟩

theorem isUnbound_var {a : Nat} (h : d = .ref a ∨ d = .attv a) : isUnbound d = true := by
  rcases h with rfl | rfl
  · rfl
  · rfl

/-- A walk goes on after symbols. -/
theorem Computes.then {l : List Symbol}
    (h : Computes W known size (addAll W size hashval (l.map Symbol.key)) s o) :
    Computes W known size hashval ((Seen.all l).then s) o := by
  cases s with
  | all l' =>
    show o = some (some (addAll W size hashval ((l ++ l').map Symbol.key)))
    rw [map_append, addAll, foldl_append]
    exact h
  | free | stray => exact h

/-- If each byte computes from what it sees, so do all. -/
theorem overBytes_spec {byte : Nat → Nat → BitVec 64 → Option (Option (BitVec 64))}
    {seen : Nat → Seen} {bs : List Nat} (h : ∀ b ∈ bs, ∀ hashval, ∃ N, ∀ n ≥ N,
      Computes W known size hashval (seen b) (byte n b hashval)) (hashval : BitVec 64) :
    ∃ N, ∀ n ≥ N, Computes W known size hashval (bytesSeen seen bs)
      (overBytes (byte n) bs hashval) := by
  induction bs generalizing hashval with
  | nil => exact ⟨0, fun _ _ => rfl⟩
  | cons b bs ih =>
    obtain ⟨N, hN⟩ := h b mem_cons_self hashval
    cases hs : seen b with
    | all l =>
      rw [hs] at hN
      obtain ⟨M, hM⟩ := ih (fun b hb => h b (mem_cons_of_mem _ hb))
        (addAll W size hashval (l.map Symbol.key))
      refine ⟨N + M, fun n hn => ?_⟩
      rw [bytesSeen, hs]
      apply Computes.then
      rw [overBytes, hN n (by omega)]
      exact hM n (by omega)
    | free =>
      rw [hs] at hN
      refine ⟨N, fun n hn => ?_⟩
      rw [bytesSeen, hs, overBytes, hN n hn]
      rfl
    | stray =>
      rw [hs] at hN
      refine ⟨N, fun n hn => ?_⟩
      rw [bytesSeen, hs]
      intro hknown
      rw [overBytes, hN n hn hknown]
      rfl

/-- A byte of a joint index, for the argument that it stands for. -/
theorem hashByte_spec (W : HashWords) (size : Nat) {arg : Nat → Cell} {arity b : Nat}
    (hb : ByteOK arity b) (h : ∀ j, 0 < j → j ≤ arity → b = j ∧ j ≤ 0x80 ∨ b = j + 0x80 →
      Holds mem addr [arg j] (t.nth (j - 1))) (hashval : BitVec 64) :
    ∃ N, ∀ n ≥ N, Computes W (StrayFunctors mem) size hashval (byteSeen t b)
      (hashByte W mem n arg size b hashval) := by
  rw [byteSeen]
  by_cases hzero : b = 0
  · refine ⟨0, fun n _ => ?_⟩
    rw [if_pos hzero, hashByte, if_pos hzero]
    rfl
  rw [if_neg hzero]
  rcases hb.2 with ⟨hplain, hle⟩ | ⟨hstar, hle⟩
  case inl =>
    obtain ⟨N, d, hd, hcase⟩ := (h b (Nat.pos_of_ne_zero hzero) hle (.inl ⟨rfl, hplain⟩)).plain
    refine ⟨N, fun n hn => ?_⟩
    rw [if_pos hplain, hashByte, if_neg hzero, if_pos hplain, hd n hn]
    rcases hcase with ⟨hs, a', ha⟩ | ⟨f, args, hs, hr⟩
    · rw [hs, bind_eq_bind, bind_some, isUnbound_var ha]
      rfl
    · rw [hs, bind_eq_bind, bind_some, hr.bound, hr.valToHash W]
      rfl
  case inr =>
    have hj : Holds mem addr (arg (b - 0x80) :: pending mem []) (t.nth (b - 0x80 - 1)) :=
      h (b - 0x80) (by omega) hle (.inr (by omega))
    obtain ⟨N, hN⟩ := starLoop_spec W size maxToIndex hj
      (fun p hp => absurd hp not_mem_nil) hashval
    refine ⟨N, fun n hn => ?_⟩
    rw [if_neg (by omega), hashByte, if_neg hzero, if_neg (by omega)]
    exact hN n hn

theorem castInt_lt {h : Nat} (hh : h < 2 ^ 31) : castInt h = .ofNat 64 h := by
  have hmsb : (BitVec.ofNat 32 h).msb = false := by
    rw [BitVec.msb_eq_false_iff_two_mul_lt, BitVec.toNat_ofNat]
    omega
  rw [castInt, BitVec.signExtend_eq_setWidth_of_msb_false hmsb]
  apply BitVec.eq_of_toNat_eq
  rw [BitVec.toNat_setWidth, BitVec.toNat_ofNat, BitVec.toNat_ofNat]
  omega

/-- Registers are taken by the low bits of a byte, and the rest is as in `hash_val`. -/
theorem switchByte_eq (W : HashWords) (mem : Nat → Cell) (n : Nat) (reg : Nat → Cell) {b : Nat}
    (hb : b < 2 ^ 8) (hpos : 0 < size) (hlt : size < 2 ^ 31) (j : BitVec 64) :
    switchByte W mem n reg size b j = hashByte W mem n (fun i => reg (i % 2 ^ 7)) size b j := by
  have hcast : ∀ w, castInt (ihash w size) = .ofNat 64 (ihash w size) := by
    intro w
    have hmod : ihash w size < size := Nat.mod_lt _ hpos
    exact castInt_lt (by omega)
  rw [switchByte, hashByte]
  by_cases hzero : b = 0
  · rw [if_neg (not_not_intro hzero), if_pos hzero]
  rw [if_pos hzero, if_neg hzero]
  by_cases hstar : 0x80 < b
  · have hmod : (b - 0x80) % 2 ^ 7 = b % 2 ^ 7 := by omega
    rw [if_pos hstar, if_neg (by omega), hmod]
  · rw [if_neg hstar, if_pos (by omega)]
    simp only [hcast]
    rfl

/-! ### Heads and calls -/

/-- The head of a clause, of a predicate with a PSC record, and its arguments. -/
def HeadAt {V : Type*} (mem : Nat → Cell) (addr : V → Nat) (head : Cell) (p : Psc)
    (t : Tuple Symbol V) : Prop :=
  addr.Injective ∧ ∃ a, DerefsTo mem head (.cs a) ∧ mem a = .functor p ∧
    Holds mem addr ((List.range' 1 p.arity).map fun j => mem (a + j)) t

/-- The registers with the arguments of a call. -/
def CallAt {V : Type*} (mem : Nat → Cell) (addr : V → Nat) (reg : Nat → Cell) (arity : Nat)
    (t : Tuple Symbol V) : Prop :=
  addr.Injective ∧ Holds mem addr ((List.range' 1 arity).map reg) t

/-- The arguments of an index are those of the predicate. -/
def IndexOK (arity ind : Nat) : Prop :=
  if ind ≤ 0xff then 0 < ind ∧ ind ≤ arity else ∀ b ∈ indexBytes ind, ByteOK arity b

/-- Words are added up, each with twice the weight of the one after it. -/
def weigh (size : Nat) (l : List (BitVec 64)) : Nat :=
  l.foldl (fun h w => 2 * h + w.toNat % size) 0

/-- The key by which `hash_val` takes a symbol. -/
def headKey (ind : Nat) (f : Symbol) : Key :=
  if ind ≤ 0xff ∧ f = .string nilName then .word 0 else f.key

/-- The key by which `switchonbound` takes a symbol. For a float in a cell it makes the words of a
boxed one. -/
def boundKey : Symbol → Key
  | .string s => if s = nilName then .word 0 else .string s
  | .float x => .word (floatHash x)
  | f => f.key

/-- The key by which the instructions take a symbol. -/
def callKey (ind : Nat) (f : Symbol) : Key := if ind ≤ 0xff then boundKey f else f.key

theorem Holds.get {cell : Nat → Cell} {arity j : Nat}
    (h : Holds mem addr ((List.range' 1 arity).map cell) t) (hj : 0 < j) (hle : j ≤ arity) :
    Holds mem addr [cell j] (t.nth (j - 1)) := by
  apply h.nth
  rw [List.getElem?_map, List.getElem?_range' (by omega)]
  show some (cell (1 + 1 * (j - 1))) = _
  congr 2
  omega

/-- A sum of few words is not too large. -/
theorem addAll_toNat (W : HashWords) {l : List Key} (hpos : 0 < size) (hashval : BitVec 64)
    (hle : (hashval.toNat + size) * 2 ^ l.length ≤ 2 ^ 63) :
    (addAll W size hashval l).toNat =
      (l.map W.word).foldl (fun h w => 2 * h + w.toNat % size) hashval.toNat ∧
      (addAll W size hashval l).toNat + size ≤ 2 ^ 63 := by
  induction l generalizing hashval with
  | nil =>
    rw [length_nil, Nat.pow_zero, Nat.mul_one] at hle
    exact ⟨rfl, hle⟩
  | cons x l ih =>
    have hmod : (W.word x).toNat % size < size := Nat.mod_lt _ hpos
    have hone : (hashval.toNat + size) * 2 ≤ 2 ^ 63 := by
      rw [length_cons, Nat.pow_succ'] at hle
      calc (hashval.toNat + size) * 2 ≤ (hashval.toNat + size) * 2 * 2 ^ l.length :=
            Nat.le_mul_of_pos_right _ (Nat.two_pow_pos _)
        _ ≤ 2 ^ 63 := by rw [Nat.mul_assoc]; exact hle
    have hsum : (addHash hashval (ihash (W.word x) size)).toNat =
        2 * hashval.toNat + (W.word x).toNat % size := by
      rw [addHash, ihash, BitVec.toNat_add, BitVec.toNat_add, BitVec.toNat_ofNat]
      omega
    have hnext : ((addHash hashval (ihash (W.word x) size)).toNat + size) * 2 ^ l.length ≤
        2 ^ 63 := by
      rw [length_cons, Nat.pow_succ', ← Nat.mul_assoc] at hle
      rw [hsum]
      exact (Nat.mul_le_mul_right _ (by omega)).trans hle
    have hrest := ih _ hnext
    rw [hsum] at hrest
    exact hrest

theorem bucketOf_addAll (W : HashWords) {l : List Key} (hpos : 0 < size)
    (hle : size * 2 ^ l.length ≤ 2 ^ 63) :
    bucketOf (addAll W size 0 l) size = (weigh size (l.map W.word) % size : Nat) := by
  have hzero : (0 : BitVec 64).toNat = 0 := rfl
  obtain ⟨hsum, hlt⟩ := addAll_toNat W (l := l) hpos 0
    (by rw [hzero, Nat.zero_add]; exact hle)
  have hint : (addAll W size 0 l).toInt = (addAll W size 0 l).toNat := by
    apply BitVec.toInt_eq_toNat_of_lt
    omega
  rw [bucketOf, if_neg (by omega), hint, hsum, hzero]
  rfl

end XSBEngine.Indexing
