import Mathlib
import XSBEngine.Indexing.Buckets

/-!
# Whether calls find their clauses

The bucket of a clause is the one that the instruction selects, for every call that unifies with
the head, just if nothing else is inspected than symbols of both that are hashed alike.
-/

namespace XSBEngine.Indexing

open Function Heap List PrefixTerms

/-! ### Terms elsewhere in memory -/

/-- A cell with a moved address. -/
def move (k : Nat) : Cell → Cell
  | .ref a => .ref (k * a)
  | .attv a => .attv (k * a)
  | .list a => .list (k * a)
  | .cs a => .cs (k * a)
  | c => c

/-- A cell of the arguments of a structure or a list that begins with a cell. -/
def Cell.hasArg : Cell → Nat → Bool
  | .functor p, i => i ≤ p.arity
  | _, i => i = 1

/-- Terms are moved apart. At multiples of `k` each cell is followed by its own copies of the cells
after it, as far as these are arguments, and then by PSC records. -/
def stretch (k : Nat) (q : Psc) (mem : Nat → Cell) (x : Nat) : Cell :=
  let a := x / k
  let i := x % k
  if i = 0 then move k (mem a)
  else if Cell.hasArg (mem a) i then
    match mem (a + i) with
    | .functor _ => .int 0
    | c => move k c
  else .functor q

variable {V V' : Type*} {mem mem' : Nat → Cell} {addr : V → Nat} {addr' : V' → Nat}
  {c d head : Cell} {cs args : List Cell} {p q : Psc} {reg : Nat → Cell} {ind size k i a : Nat}
  {f : Symbol} {t : Tuple Symbol V} {t' : Tuple Symbol V'} {W : HashWords}

theorem stretch_base (hk : 0 < k) (a : Nat) : stretch k q mem (k * a) = move k (mem a) := by
  rw [stretch, Nat.mul_mod_right, if_pos rfl, Nat.mul_div_cancel_left a hk]

theorem stretch_arg (hi : 0 < i) (hik : i < k) (harg : Cell.hasArg (mem a) i)
    (hf : ¬IsFunctor (mem (a + i))) : stretch k q mem (k * a + i) = move k (mem (a + i)) := by
  have hdiv : (k * a + i) / k = a := by
    rw [Nat.mul_add_div (by omega), Nat.div_eq_of_lt hik, Nat.add_zero]
  have hmod : (k * a + i) % k = i := by
    rw [Nat.mul_add_mod, Nat.mod_eq_of_lt hik]
  rw [stretch, hdiv, hmod, if_neg (by omega), if_pos harg]
  cases h : mem (a + i) with
  | functor q => exact absurd ⟨q, h⟩ hf
  | _ => rfl

theorem move_functor (h : move k c = .functor p) : c = .functor p := by
  cases c <;> first | exact h | cases h

/-- After a structure without arguments there is a PSC record. -/
theorem stretch_stray (hk : 1 < k) (hq : q.arity ≠ 0) : StrayFunctors (stretch k q mem) := by
  intro x p hx hp
  refine ⟨q, ?_⟩
  rw [stretch] at hx
  split at hx
  next hzero =>
    have hbase := move_functor hx
    have hmod : (x + 1) % k = 1 := by
      rw [Nat.add_mod, hzero, Nat.zero_add, Nat.mod_mod, Nat.mod_eq_of_lt hk]
    have hdiv : (x + 1) / k = x / k := by
      apply Nat.succ_div_of_not_dvd
      intro hdvd
      rw [Nat.mod_eq_zero_of_dvd hdvd] at hmod
      omega
    have harg : Cell.hasArg (.functor p) 1 = false := by
      rw [Cell.hasArg, hp]
      rfl
    rw [stretch, hdiv, hmod, if_neg Nat.one_ne_zero, hbase, if_neg (by rw [harg]; decide)]
  next =>
    split at hx
    · split at hx
      · cases hx
      · next hne => exact absurd (move_functor hx) (hne p)
    · cases hx
      exact absurd hp hq

theorem deref_stretch (hk : 0 < k) {n : Nat} (h : deref mem n c = some d) :
    deref (stretch k q mem) n (move k c) = some (move k d) := by
  induction n generalizing c with
  | zero => cases h
  | succ n ih =>
    have hfree : ∀ a, stretch k q mem (k * a) = .ref (k * a) ↔ mem a = .ref a := by
      intro a
      rw [stretch_base hk]
      cases hc : mem a with
      | ref b =>
        simp only [move, Cell.ref.injEq]
        exact Nat.mul_right_inj (by omega)
      | _ => simp [move]
    cases c with
    | ref a | attv a =>
      simp only [deref, move, hfree] at h ⊢
      split at h
      next hself =>
        cases h
        rw [if_pos hself]
      next hself =>
        rw [if_neg hself, stretch_base hk]
        exact ih h
    | _ => cases h; rfl

theorem DerefsTo.stretch (hk : 0 < k) (h : DerefsTo mem c d) :
    DerefsTo (stretch k q mem) (move k c) (move k d) := by
  obtain ⟨N, hN⟩ := h
  exact ⟨N, fun n hn => deref_stretch hk (hN n hn)⟩

theorem DerefsTo.not_functor (h : DerefsTo mem c d) (hd : ¬IsFunctor d) : ¬IsFunctor c := by
  rintro ⟨q, rfl⟩
  obtain ⟨N, hN⟩ := h
  cases hN (N + 1) (by omega)
  exact hd ⟨q, rfl⟩

theorem Holds.not_functor (h : Holds mem addr cs t) : ∀ c ∈ cs, ¬IsFunctor c := by
  induction h with
  | nil => exact fun c hc => absurd hc not_mem_nil
  | var hd _ ih =>
    apply forall_mem_cons.mpr ⟨_, ih⟩
    rcases hd with hd | hd
    · exact hd.not_functor (by rintro ⟨q, hq⟩; cases hq)
    · exact hd.not_functor (by rintro ⟨q, hq⟩; cases hq)
  | app hd hr _ _ _ ih =>
    apply forall_mem_cons.mpr ⟨_, ih⟩
    exact hd.not_functor (by rintro ⟨q, rfl⟩; cases hr)

theorem Root.stretch (hk : 3 < k) (hrank : f.rank < k) (h : Root mem d f args)
    (hargs : ∀ c ∈ args, ¬IsFunctor c) :
    Root (stretch k q mem) (move k d) f (args.map (move k)) := by
  have hbox : ∀ {a i : Nat} {j : Int}, mem a = .functor boxPsc → 0 < i → i ≤ 3 →
      mem (a + i) = .int j → Indexing.stretch k q mem (k * a + i) = .int j := by
    intro a i j ha hi hle hj
    rw [stretch_arg hi (by omega) (by rw [ha]; exact decide_eq_true hle)
      (by rw [hj]; rintro ⟨q, hq⟩; cases hq), hj]
    rfl
  have hbase : ∀ a, Indexing.stretch k q mem (k * a) = move k (mem a) :=
    stretch_base (by omega)
  cases h with
  | int i => exact .int i
  | float x => exact .float x
  | string s => exact .string s
  | boxedInt ha hid hint hhi hlo =>
    exact .boxedInt (by rw [hbase, ha]; rfl) (hbox ha (by omega) (by omega) hid) hint
      (hbox ha (by omega) (by omega) hhi) (hbox ha (by omega) (by omega) hlo)
  | boxedFloat ha hid hmiddle hlow =>
    exact .boxedFloat (by rw [hbase, ha]; rfl) (hbox ha (by omega) (by omega) hid)
      (hbox ha (by omega) (by omega) hmiddle) (hbox ha (by omega) (by omega) hlow)
  | list a =>
    have hhead := hargs (mem a) mem_cons_self
    have htail := hargs (mem (a + 1)) (mem_cons_of_mem _ mem_cons_self)
    have harg : Cell.hasArg (mem a) 1 := by
      cases hc : mem a with
      | functor q => exact absurd ⟨q, hc⟩ hhead
      | _ => rfl
    have hroot : Root (Indexing.stretch k q mem) (.list (k * a)) .list
        [Indexing.stretch k q mem (k * a), Indexing.stretch k q mem (k * a + 1)] := .list _
    rw [hbase, stretch_arg Nat.one_pos (by omega) harg htail] at hroot
    exact hroot
  | @struct a p hp hne =>
    have hcells : (List.range p.arity).map (fun i => Indexing.stretch k q mem (k * a + 1 + i)) =
        ((List.range p.arity).map fun i => mem (a + 1 + i)).map (move k) := by
      rw [map_map]
      apply map_congr_left
      intro i hi
      have hlt := mem_range.mp hi
      have hrank' : p.arity < k := hrank
      have hcell : ¬IsFunctor (mem (a + (1 + i))) := by
        rw [← Nat.add_assoc]
        exact hargs _ (mem_map_of_mem hi)
      rw [Nat.add_assoc, stretch_arg (by omega) (by omega)
        (by rw [hp]; exact decide_eq_true (by omega)) hcell, ← Nat.add_assoc]
      rfl
    rw [← hcells]
    exact .struct (by rw [hbase, hp]; rfl) hne

theorem Holds.stretch (q : Psc) (h : Holds mem addr cs t) :
    ∃ K, ∀ k ≥ K, Holds (stretch k q mem) (fun v => k * addr v) (cs.map (move k)) t := by
  induction h with
  | nil => exact ⟨0, fun _ _ => .nil⟩
  | var hd _ ih =>
    obtain ⟨K, hK⟩ := ih
    refine ⟨K + 1, fun k hk => .var ?_ (hK k (by omega))⟩
    exact hd.imp (·.stretch (by omega)) (·.stretch (by omega))
  | @app _ d _ args f targs t' hd hr hargs _ ihargs ih =>
    obtain ⟨K, hK⟩ := ihargs
    obtain ⟨K', hK'⟩ := ih
    refine ⟨K + K' + f.rank + 4, fun k hk => ?_⟩
    exact .app (hd.stretch (by omega)) (hr.stretch (by omega) (by omega) hargs.not_functor)
      (hK k (by omega)) (hK' k (by omega))

/-- A head that is followed by PSC records where terms end. -/
theorem HeadAt.stray (h : HeadAt mem addr head p t) :
    ∃ (mem' : Nat → Cell) (addr' : V → Nat) (head' : Cell),
      StrayFunctors mem' ∧ HeadAt mem' addr' head' p t := by
  obtain ⟨hinj, a, hd, hp, hargs⟩ := h
  obtain ⟨K, hK⟩ := hargs.stretch boxPsc
  obtain ⟨k, hk, hrank, hone⟩ : ∃ k, K ≤ k ∧ p.arity < k ∧ 1 < k :=
    ⟨K + p.arity + 2, by omega, by omega, by omega⟩
  have hcells : (List.range' 1 p.arity).map (fun j => Indexing.stretch k boxPsc mem (k * a + j)) =
      ((List.range' 1 p.arity).map fun j => mem (a + j)).map (move k) := by
    rw [map_map]
    apply map_congr_left
    intro j hj
    have hmem := mem_range'_1.mp hj
    exact stretch_arg (by omega) (by omega) (by rw [hp]; exact decide_eq_true (by omega))
      (hargs.not_functor _ (mem_map_of_mem hj))
  refine ⟨Indexing.stretch k boxPsc mem, fun v => k * addr v, move k head,
    stretch_stray hone (by decide), fun v w hvw => hinj (Nat.eq_of_mul_eq_mul_left (by omega) hvw),
    k * a, hd.stretch (by omega), ?_, ?_⟩
  · rw [stretch_base (by omega), hp]
    rfl
  · rw [hcells]
    exact hK k hk

/-- Registers of a call where register 0 holds no argument, and of which the terms are followed by
PSC records. -/
theorem CallAt.stray (h : CallAt mem addr reg p.arity t) :
    ∃ (mem' : Nat → Cell) (addr' : V → Nat) (reg' : Nat → Cell),
      (StrayFunctors mem' ∧ IsFunctor (reg' 0)) ∧ CallAt mem' addr' reg' p.arity t := by
  obtain ⟨hinj, hargs⟩ := h
  obtain ⟨K, hK⟩ := hargs.stretch boxPsc
  have hcells : (List.range' 1 p.arity).map
      (fun j => if j = 0 then .functor boxPsc else move (K + 2) (reg j)) =
      ((List.range' 1 p.arity).map reg).map (move (K + 2)) := by
    rw [map_map]
    apply map_congr_left
    intro j hj
    have hmem := mem_range'_1.mp hj
    exact if_neg (by omega)
  refine ⟨Indexing.stretch (K + 2) boxPsc mem, fun v => (K + 2) * addr v,
    fun j => if j = 0 then .functor boxPsc else move (K + 2) (reg j),
    ⟨stretch_stray (by omega) (by decide), boxPsc, if_pos rfl⟩,
    fun v w hvw => hinj (Nat.eq_of_mul_eq_mul_left (by omega) hvw), ?_⟩
  rw [hcells]
  exact hK (K + 2) (by omega)

/-! ### Sizes that tell keys apart -/

/-- Keys are equal, or one is of a float in a cell and the other one of a number. -/
inductive KeyRel : Key → Key → Prop where
  | refl (x : Key) : KeyRel x x
  | left (x : Float64) (w : BitVec 64) : KeyRel (.float x) (.word w)
  | right (x : Float64) (w : BitVec 64) : KeyRel (.word w) (.float x)

/-- Words where that of each float in a cell is the same. -/
def HashWords.ofFloat (w : BitVec 64) : HashWords := ⟨fun _ => 0, fun _ => 0, 0, fun _ => w⟩

theorem weigh_cons (size : Nat) (w : BitVec 64) (l : List (BitVec 64)) :
    weigh size (w :: l) = w.toNat % size * 2 ^ l.length + weigh size l := by
  have hstart : ∀ (h : Nat) (l : List (BitVec 64)),
      l.foldl (fun h w => 2 * h + w.toNat % size) h = h * 2 ^ l.length + weigh size l := by
    intro h l
    induction l generalizing h with
    | nil => rw [length_nil, Nat.pow_zero, Nat.mul_one]; rfl
    | cons w l ih =>
      rw [weigh, foldl_cons, foldl_cons, ih, ih (2 * 0 + _), length_cons]
      ring
  rw [weigh, foldl_cons, hstart, Nat.mul_zero, Nat.zero_add]

/-- Words of different parity are told apart, before words that are the same. -/
theorem weigh_ne {w w' : BitVec 64} (l : List (BitVec 64)) (h : w.toNat % 2 ≠ w'.toNat % 2) :
    weigh (2 ^ (l.length + 1)) (w :: l) % 2 ^ (l.length + 1) ≠
      weigh (2 ^ (l.length + 1)) (w' :: l) % 2 ^ (l.length + 1) := by
  intro heq
  rw [weigh_cons, weigh_cons] at heq
  have hmod : ∀ w : BitVec 64, w.toNat % 2 ^ (l.length + 1) * 2 ^ l.length ≡
      w.toNat * 2 ^ l.length [MOD 2 ^ (l.length + 1)] :=
    fun w => (Nat.mod_modEq _ _).mul_right _
  have hcancel := Nat.ModEq.add_right_cancel' _ (show _ ≡ _ [MOD 2 ^ (l.length + 1)] from heq)
  have hmul := ((hmod w).symm.trans hcancel).trans (hmod w')
  rw [Nat.pow_succ'] at hmul
  exact h (hmul.mul_right_cancel' (Nat.two_pow_pos _).ne')

/-- Different keys have words and a size by which they are told apart. -/
theorem exists_size {l l' : List Key} (h : List.Forall₂ KeyRel l l') (hne : l ≠ l') :
    ∃ (W : HashWords) (e : Nat), 0 < e ∧ e ≤ l.length ∧
      weigh (2 ^ e) (l.map W.word) % 2 ^ e ≠ weigh (2 ^ e) (l'.map W.word) % 2 ^ e := by
  induction h with
  | nil => exact absurd rfl hne
  | @cons x y l l' hxy htail ih =>
    by_cases heq : l = l'
    · subst heq
      -- these are the last ones that differ
      have hparity : ∃ W : HashWords, (W.word x).toNat % 2 ≠ (W.word y).toNat % 2 := by
        have hother : ∀ w : BitVec 64, ∃ w' : BitVec 64, w'.toNat % 2 ≠ w.toNat % 2 := by
          intro w
          rcases Nat.mod_two_eq_zero_or_one w.toNat with hw | hw
          · exact ⟨1, by rw [hw]; decide⟩
          · exact ⟨0, by rw [hw]; decide⟩
        cases hxy with
        | refl => exact absurd rfl hne
        | left z w =>
          obtain ⟨w', hw'⟩ := hother w
          exact ⟨.ofFloat w', hw'⟩
        | right z w =>
          obtain ⟨w', hw'⟩ := hother w
          exact ⟨.ofFloat w', hw'.symm⟩
      obtain ⟨W, hW⟩ := hparity
      have hlt := weigh_ne (l.map W.word) hW
      rw [length_map] at hlt
      exact ⟨W, l.length + 1, Nat.succ_pos _, le_rfl, hlt⟩
    · obtain ⟨W, e, he, hle, hW⟩ := ih heq
      refine ⟨W, e, he, Nat.le_succ_of_le hle, ?_⟩
      have hfirst : ∀ (x : Key) (l : List Key), e ≤ l.length →
          weigh (2 ^ e) ((x :: l).map W.word) % 2 ^ e =
            weigh (2 ^ e) (l.map W.word) % 2 ^ e := by
        intro x l hle
        have hdvd : 2 ^ e ∣ (W.word x).toNat % 2 ^ e * 2 ^ l.length :=
          (Nat.pow_dvd_pow 2 hle).mul_left _
        rw [map_cons, weigh_cons, length_map, Nat.add_mod, Nat.mod_eq_zero_of_dvd hdvd,
          Nat.zero_add, Nat.mod_mod]
      rw [hfirst x l hle, hfirst y l' (htail.length_eq ▸ hle)]
      exact hW

/-! ### Symbols that are unified -/

/-- Symbols that `unify_xsb` takes for the same. Of a float in a cell and a boxed one, the latter
is first made shorter. -/
def Matches (fl : Floats) (single : Float64 → Float64) : Symbol → Symbol → Prop
  | .float x, .boxedFloat y => fl.eq x (single y)
  | .boxedFloat x, .float y => fl.eq y (single x)
  | f, f' => f = f'

variable {fl : Floats} {single : Float64 → Float64} {r : Symbol → Symbol → Prop}
  {l l' : List Symbol} {f' : Symbol}

theorem Matches.refl (fl : Floats) (single : Float64 → Float64) (f : Symbol) :
    Matches fl single f f := by
  cases f <;> rfl

theorem Matches.rank (h : Matches fl single f f') : f.rank = f'.rank := by
  cases f <;> cases f' <;> first | rfl | cases h <;> rfl

/-- What is hashed differs only for floats that are not all boxed. -/
theorem Matches.keyRel (h : Matches fl single f f') : KeyRel f.key f'.key := by
  cases f <;> cases f' <;> first | exact .left _ _ | exact .right _ _ | cases h <;> exact .refl _

theorem Seen.cons_all {s : Seen} (h : s.cons f = .all l) :
    ∃ l1, s = .all l1 ∧ l = f :: l1 := by
  cases s with
  | all l1 => cases h; exact ⟨l1, rfl, rfl⟩
  | free | stray => cases h

theorem starSeen_forall₂ {toks : List (Symbol ⊕ V)} {toks' : List (Symbol ⊕ V')}
    (h : AgreeToVar r toks toks') (hl : starSeen k toks = .all l)
    (hl' : starSeen k toks' = .all l') :
    List.Forall₂ r l l' := by
  induction k generalizing toks toks' l l' with
  | zero =>
    cases hl
    cases hl'
    exact .nil
  | succ k ih =>
    cases h with
    | nil =>
      cases hl
      cases hl'
      exact .nil
    | left => cases hl
    | right => cases hl'
    | cons hf hrest =>
      rw [starSeen] at hl hl'
      split at hl
      · cases hl
      · split at hl'
        · cases hl'
        · obtain ⟨l1, hs, rfl⟩ := Seen.cons_all hl
          obtain ⟨l1', hs', rfl⟩ := Seen.cons_all hl'
          exact .cons hf (ih hrest hs hs')

theorem byteSeen_forall₂ (h : Compatible r t t') {b : Nat} (hl : byteSeen t b = .all l)
    (hl' : byteSeen t' b = .all l') : List.Forall₂ r l l' := by
  have htokens : ∀ i, AgreeToVar r (t.nth i).tokens (t'.nth i).tokens := by
    intro i
    have hnth := (h.nth i).tokens .nil
    rw [append_nil, append_nil] at hnth
    exact hnth
  rw [byteSeen] at hl hl'
  split at hl
  next hzero =>
    rw [if_pos hzero] at hl'
    cases hl
    cases hl'
    exact .nil
  next hzero =>
    rw [if_neg hzero] at hl'
    split at hl
    next hplain =>
      rw [if_pos hplain] at hl'
      exact starSeen_forall₂ (htokens _) hl hl'
    next hstar =>
      rw [if_neg hstar] at hl'
      exact starSeen_forall₂ (htokens _) hl hl'

theorem bytesSeen_forall₂ {seen seen' : Nat → Seen}
    (h : ∀ b l l', seen b = .all l → seen' b = .all l' → List.Forall₂ r l l') {bs : List Nat}
    (hl : bytesSeen seen bs = .all l) (hl' : bytesSeen seen' bs = .all l') :
    List.Forall₂ r l l' := by
  induction bs generalizing l l' with
  | nil =>
    cases hl
    cases hl'
    exact .nil
  | cons b bs ih =>
    obtain ⟨l1, l2, h1, h2, rfl⟩ := Seen.then_all hl
    obtain ⟨l1', l2', h1', h2', rfl⟩ := Seen.then_all hl'
    exact rel_append (h b l1 l1' h1 h1') (ih h2 h2')

/-- What is seen of a head and of a call that unify. -/
theorem seen_forall₂ (h : Compatible r t t') (hl : headSeen ind t = .all l)
    (hl' : callSeen ind t' = .all l') :
    List.Forall₂ r l l' ∧ l.length ≤ 15 ∧ (ind ≤ 0xff → l.length ≤ 1) := by
  rw [headSeen] at hl
  rw [callSeen] at hl'
  split at hl
  next hsingle =>
    rw [if_pos hsingle] at hl'
    have htokens := (h.nth (ind - 1)).tokens .nil
    rw [append_nil, append_nil] at htokens
    have hlen := starSeen_length hl
    exact ⟨starSeen_forall₂ htokens hl hl', by omega, fun _ => hlen⟩
  next hjoint =>
    rw [if_neg hjoint] at hl'
    refine ⟨?_, bytesSeen_length (fun _ _ => byteSeen_length) hl, fun hle => absurd hle hjoint⟩
    apply bytesSeen_forall₂ _ hl hl'
    intro b l l' hb hb'
    split at hb'
    · cases hb'
    · exact byteSeen_forall₂ h hb hb'

theorem floatHash_lt (x : Float64) : (floatHash x).toNat < 2 ^ 24 := by
  have hlt := x.isLt
  have hheader : (floatHeader x).toNat = 2 * 2 ^ 16 + x.toNat / 2 ^ 48 :=
    Arith.toNat_floatHeader x
  have hmiddle := Arith.toNat_mask (k := 24) (x >>> 24) 0xffffff rfl
  have hlow := Arith.toNat_mask (k := 24) x 0xffffff rfl
  show (floatHeader x ^^^ (x >>> 24 &&& 0xffffff) ^^^ (x &&& 0xffffff)).toNat < _
  rw [BitVec.toNat_xor, BitVec.toNat_xor]
  apply Nat.xor_lt_two_pow
  · apply Nat.xor_lt_two_pow
    · omega
    · omega
  · omega

/-- At a single position, two floats may be unified of which both are hashed as boxed ones. -/
theorem Matches.single_key (h : Matches fl single f f') (hind : ind ≤ 0xff) :
    KeyRel (headKey ind f) (callKey ind f') ∨
      ∃ x y, headKey ind f = .word (floatHash x) ∧ callKey ind f' = .word (floatHash y) := by
  have hplain : ∀ f, (∀ s, f ≠ .string s) → headKey ind f = f.key :=
    fun f hf => if_neg fun h => hf nilName h.2
  rw [callKey, if_pos hind]
  cases f with
  | string s =>
    have hf' : f' = .string s := by
      cases f' with
      | string s' => cases h; rfl
      | _ => cases h
    subst hf'
    left
    rw [headKey, boundKey]
    by_cases hs : s = nilName
    · rw [if_pos ⟨hind, congrArg _ hs⟩, if_pos hs]
      exact .refl _
    · rw [if_neg fun h => hs (Symbol.string.inj h.2), if_neg hs]
      exact .refl _
  | float x =>
    left
    rw [hplain _ fun s hs => by cases hs]
    cases f' with
    | float y | boxedFloat y => exact .left _ _
    | _ => cases h
  | boxedFloat x =>
    rw [hplain _ fun s hs => by cases hs]
    cases f' with
    | float y | boxedFloat y => exact .inr ⟨x, y, rfl, rfl⟩
    | _ => cases h
  | _ =>
    left
    rw [hplain _ fun s hs => by cases hs]
    cases f' <;> first | (cases h; exact .refl _) | cases h

/-- Symbols that are unified but not hashed alike are told apart by some words and a size. -/
theorem exists_distinct (h : List.Forall₂ (Matches fl single) l l') (hlen : l.length ≤ 15)
    (hsingle : ind ≤ 0xff → l.length ≤ 1) (hne : l.map (headKey ind) ≠ l'.map (callKey ind)) :
    ∃ (W : HashWords) (size : Nat), 0 < size ∧ size < 2 ^ 31 ∧
      weigh size ((l.map (headKey ind)).map W.word) % size ≠
        weigh size ((l'.map (callKey ind)).map W.word) % size := by
  have hrel : List.Forall₂ KeyRel (l.map (headKey ind)) (l'.map (callKey ind)) →
      ∃ (W : HashWords) (size : Nat), 0 < size ∧ size < 2 ^ 31 ∧
        weigh size ((l.map (headKey ind)).map W.word) % size ≠
          weigh size ((l'.map (callKey ind)).map W.word) % size := by
    intro hrel
    obtain ⟨W, e, he, hle, hW⟩ := exists_size hrel hne
    rw [length_map] at hle
    exact ⟨W, 2 ^ e, Nat.two_pow_pos _, Nat.pow_lt_pow_right Nat.one_lt_two (by omega), hW⟩
  by_cases hind : ind ≤ 0xff
  case neg =>
    apply hrel
    rw [forall₂_map_left_iff, forall₂_map_right_iff]
    apply h.imp
    intro f f' hff'
    rw [headKey, if_neg fun h => hind h.1, callKey, if_neg hind]
    exact hff'.keyRel
  case pos =>
    cases h with
    | nil => exact absurd rfl hne
    | @cons f f' l l' hff' hrest =>
      have hnil : l = [] := by
        have hle := hsingle hind
        rw [length_cons] at hle
        exact eq_nil_of_length_eq_zero (by omega)
      subst hnil
      cases hrest
      rcases hff'.single_key hind with hkey | ⟨x, y, hx, hy⟩
      · exact hrel (.cons hkey .nil)
      · refine ⟨.ofFloat 0, 2 ^ 24, Nat.two_pow_pos _, by decide, fun heq => hne ?_⟩
        have hlt := floatHash_lt x
        have hlt' := floatHash_lt y
        simp only [map_cons, map_nil, weigh_single, hx, hy, HashWords.word, ihash,
          Nat.mod_eq_of_lt hlt, Nat.mod_eq_of_lt hlt'] at heq
        rw [map_singleton, map_singleton, hx, hy, BitVec.eq_of_toNat_eq heq]

/-! ### Buckets -/

/-- A clause is put in a bucket of some table, and the instruction does not use a table of that
size or selects the same bucket. -/
def Agree (clause : Option (Int × Nat)) (call : Nat → Option (Option Int)) : Prop :=
  ∃ h size o, clause = some (h, size) ∧ call size = some o ∧ ∀ b, o = some b → b = h

/-- A clause is found by a call, for all words that symbols are hashed by, wherever the terms are,
and for all sizes of tables. -/
def BucketsAgree (ind : Nat) (p : Psc) (t : Tuple Symbol V) (t' : Tuple Symbol V') : Prop :=
  ∀ (W : HashWords) (mem mem' : Nat → Cell) (addr : V → Nat) (addr' : V' → Nat) (head : Cell)
    (reg : Nat → Cell), HeadAt mem addr head p t → CallAt mem' addr' reg p.arity t' →
    ∀ size, 0 < size → size < 2 ^ 31 →
      ∃ N, ∀ n ≥ N, Agree (clauseBucket W mem n ind head size) (switch W mem' n reg ind)

/-- Clauses and calls of which an index inspects the same symbols have the same buckets. -/
def SeenDecides (ind : Nat) (p : Psc) (t : Tuple Symbol V) (t' : Tuple Symbol V') : Prop :=
  (∀ (W : HashWords) (mem mem₁ : Nat → Cell) (addr addr₁ : V → Nat) (head head₁ : Cell)
    (t₁ : Tuple Symbol V), HeadAt mem addr head p t → HeadAt mem₁ addr₁ head₁ p t₁ →
    headSeen ind t₁ = headSeen ind t → ∀ size, 0 < size → size < 2 ^ 31 →
      ∃ N, ∀ n ≥ N, clauseBucket W mem₁ n ind head₁ size = clauseBucket W mem n ind head size) ∧
  ∀ (W : HashWords) (mem mem₁ : Nat → Cell) (addr addr₁ : V' → Nat) (reg reg₁ : Nat → Cell)
    (t₁ : Tuple Symbol V'), CallAt mem addr reg p.arity t' → CallAt mem₁ addr₁ reg₁ p.arity t₁ →
    callSeen ind t₁ = callSeen ind t' → ∀ size, 0 < size → size < 2 ^ 31 →
      ∃ N, ∀ n ≥ N, switch W mem₁ n reg₁ ind size = switch W mem n reg ind size

/-- No cell is inspected that does not belong to the terms, and unless a variable is inspected, the
symbols of the head and of the call are hashed by the same words. -/
def HoldsWhen (ind : Nat) (t : Tuple Symbol V) (t' : Tuple Symbol V') : Prop :=
  headSeen ind t ≠ .stray ∧ callSeen ind t' ≠ .stray ∧
    ∀ l l', headSeen ind t = .all l → callSeen ind t' = .all l' →
      l.map (headKey ind) = l'.map (callKey ind)

theorem Finds.unique {α : Type*} {known known' : Prop} {key : Symbol → Key} {value : Int → α}
    {unused : α} {s : Seen} {o o' : Option α} (hs : s ≠ .stray)
    (h : Finds W known key size value unused s o) (h' : Finds W known' key size value unused s o') :
    o = o' := by
  cases s with
  | all l | free => exact h.trans h'.symm
  | stray => exact absurd rfl hs

theorem seenDecides_of_holdsWhen (hind : IndexOK p.arity ind) (h : HoldsWhen ind t t') :
    SeenDecides ind p t t' := by
  constructor
  · intro W mem mem1 addr addr1 head head1 t1 hhead hhead1 hseen size hpos hlt
    obtain ⟨N, hN⟩ := clauseBucket_spec W hhead hind hpos hlt
    obtain ⟨N1, hN1⟩ := clauseBucket_spec W hhead1 hind hpos hlt
    rw [hseen] at hN1
    exact ⟨N + N1, fun n hn => (hN1 n (by omega)).unique h.1 (hN n (by omega))⟩
  · intro W mem mem1 addr addr1 reg reg1 t1 hcall hcall1 hseen size hpos hlt
    obtain ⟨N, hN⟩ := switch_spec W hcall hind hpos hlt
    obtain ⟨N1, hN1⟩ := switch_spec W hcall1 hind hpos hlt
    rw [hseen] at hN1
    exact ⟨N + N1, fun n hn => (hN1 n (by omega)).unique h.2.1 (hN n (by omega))⟩

theorem bucketsAgree_of_holdsWhen (hind : IndexOK p.arity ind) (h : HoldsWhen ind t t') :
    BucketsAgree ind p t t' := by
  intro W mem mem' addr addr' head reg hhead hcall size hpos hlt
  obtain ⟨hhstray, hcstray, hkeys⟩ := h
  obtain ⟨N, hN⟩ := clauseBucket_spec W hhead hind hpos hlt
  obtain ⟨N', hN'⟩ := switch_spec W hcall hind hpos hlt
  obtain ⟨N1, hN1⟩ := switch_spec W hcall hind Nat.one_pos (by decide)
  refine ⟨N + N' + N1, fun n hn => ?_⟩
  have hclause := hN n (by omega)
  have hswitch := hN' n (by omega)
  have hone := hN1 n (by omega)
  cases hs : headSeen ind t with
  | stray => exact absurd hs hhstray
  | free =>
    rw [hs, Finds] at hclause
    cases hs' : callSeen ind t' with
    | stray => exact absurd hs' hcstray
    | free =>
      rw [hs', Finds] at hone
      exact ⟨0, 1, none, hclause, hone, fun b hb => by cases hb⟩
    | all l' =>
      rw [hs', Finds, Nat.mod_one] at hone
      exact ⟨0, 1, some 0, hclause, hone, fun b hb => by cases hb; rfl⟩
  | all l =>
    rw [hs, Finds] at hclause
    cases hs' : callSeen ind t' with
    | stray => exact absurd hs' hcstray
    | free =>
      rw [hs', Finds] at hswitch
      exact ⟨_, size, none, hclause, hswitch, fun b hb => by cases hb⟩
    | all l' =>
      rw [hs', Finds, ← hkeys l l' hs hs'] at hswitch
      exact ⟨_, size, _, hclause, hswitch, fun b hb => by cases hb; rfl⟩

theorem holdsWhen_of_bucketsAgree (hhead : HeadAt mem addr head p t)
    (hcall : CallAt mem' addr' reg p.arity t') (hind : IndexOK p.arity ind)
    (hunify : Unifies (Matches fl single) t t') (h : BucketsAgree ind p t t') :
    HoldsWhen ind t t' := by
  have hcompat : Compatible (Matches fl single) t t' := by
    apply hunify.compatible (fun _ _ h => h.rank) _ hcall.2.ranked
    · obtain ⟨-, a, -, -, hargs⟩ := hhead
      rw [hargs.length, hcall.2.length, length_map, length_map]
    · obtain ⟨-, a, -, -, hargs⟩ := hhead
      exact hargs.ranked
  refine ⟨fun hs => ?_, fun hs => ?_, fun l l' hs hs' => ?_⟩
  · -- cells after the head are not terms
    obtain ⟨mem1, addr1, head1, hstray, hhead1⟩ := hhead.stray
    obtain ⟨N, hN⟩ := h (.ofFloat 0) mem1 mem' addr1 addr' head1 reg hhead1 hcall 1 Nat.one_pos
      (by decide)
    obtain ⟨N', hN'⟩ := clauseBucket_spec (.ofFloat 0) hhead1 hind Nat.one_pos (by decide)
    obtain ⟨b, size, o, hclause, -⟩ := hN (N + N') (by omega)
    have hnone := hN' (N + N') (by omega)
    rw [hs] at hnone
    rw [hnone hstray] at hclause
    cases hclause
  · -- nor are those after the arguments of the call
    obtain ⟨mem1, addr1, reg1, hstray, hcall1⟩ := hcall.stray
    obtain ⟨N, hN⟩ := h (.ofFloat 0) mem mem1 addr addr1 head reg1 hhead hcall1 1 Nat.one_pos
      (by decide)
    obtain ⟨N', hN'⟩ := switch_spec (.ofFloat 0) hcall1 hind Nat.one_pos (by decide)
    obtain ⟨b, size, o, hclause, hswitch, -⟩ := hN (N + N') (by omega)
    have hsize : size = 1 := by
      rw [clauseBucket] at hclause
      cases hv : hashVal (.ofFloat 0) mem (N + N') ind head 1 with
      | none => rw [hv] at hclause; cases hclause
      | some v =>
        rw [hv, Option.map_some] at hclause
        split at hclause
        · cases hclause; rfl
        · cases hclause; rfl
    have hnone := hN' (N + N') (by omega)
    rw [hs] at hnone
    rw [hsize, hnone hstray] at hswitch
    cases hswitch
  · obtain ⟨hall, hlen, hsingle⟩ := seen_forall₂ hcompat hs hs'
    by_contra hne
    obtain ⟨W, size, hpos, hlt, hdiff⟩ := exists_distinct hall hlen hsingle hne
    obtain ⟨N, hN⟩ := h W mem mem' addr addr' head reg hhead hcall size hpos hlt
    obtain ⟨N1, hN1⟩ := clauseBucket_spec W hhead hind hpos hlt
    obtain ⟨N2, hN2⟩ := switch_spec W hcall hind hpos hlt
    obtain ⟨b, size', o, hclause, hswitch, hb⟩ := hN (N + N1 + N2) (by omega)
    have hclause' := hN1 (N + N1 + N2) (by omega)
    have hswitch' := hN2 (N + N1 + N2) (by omega)
    rw [hs, Finds, hclause] at hclause'
    cases hclause'
    rw [hs', Finds, hswitch] at hswitch'
    cases hswitch'
    exact hdiff (Int.ofNat.inj (hb _ rfl)).symm

/-- The bucket that is computed for the head of a clause is the one that is selected for a call
that unifies with it, and both depend on the inspected symbols only, just if no cells are inspected
that do not belong to their terms and the symbols that are inspected are hashed by the same
words. -/
theorem bucketsAgree_iff (hhead : HeadAt mem addr head p t)
    (hcall : CallAt mem' addr' reg p.arity t') (hind : IndexOK p.arity ind)
    (hunify : Unifies (Matches fl single) t t') :
    BucketsAgree ind p t t' ∧ SeenDecides ind p t t' ↔ HoldsWhen ind t t' := by
  constructor
  · exact fun h => holdsWhen_of_bucketsAgree hhead hcall hind hunify h.1
  · exact fun h => ⟨bucketsAgree_of_holdsWhen hind h, seenDecides_of_holdsWhen hind h⟩

/-! ### Examples -/

/-- Words of strings by their lengths, and of PSC records by their arities. -/
def lengthWords : HashWords :=
  ⟨fun s => .ofNat 64 s.bytes.length, fun p => .ofNat 64 p.arity, 7, fun x => x⟩

def fooPsc (arity : Nat) : Psc :=
  ⟨⟨"foo".toList.map fun c => c.toNat.toUInt8, by decide⟩, arity, none⟩

/-- `foo(foo(i))`, or `foo(foo())` and then an integer. -/
def fooMem (arity : Nat) (i : Int) : Nat → Cell
  | 0 => .functor (fooPsc 1)
  | 1 => .cs 2
  | 2 => .functor (fooPsc arity)
  | _ => .int i

theorem DerefsTo.struct (mem : Nat → Cell) (a : Nat) : DerefsTo mem (.cs a) (.cs a) := by
  refine ⟨1, fun n hn => ?_⟩
  obtain ⟨n, rfl⟩ := Nat.exists_eq_add_of_le' hn
  rfl

theorem DerefsTo.int (mem : Nat → Cell) (i : Int) : DerefsTo mem (.int i) (.int i) := by
  refine ⟨1, fun n hn => ?_⟩
  obtain ⟨n, rfl⟩ := Nat.exists_eq_add_of_le' hn
  rfl

/-- The argument `foo(..)`. -/
def fooTuple (arity : Nat) (args : Tuple Symbol Empty) : Tuple Symbol Empty :=
  .app (.functor (fooPsc arity)) args .nil

theorem fooMem_empty (i : Int) :
    HeadAt (fooMem 0 i) nofun (.cs 0) (fooPsc 1) (fooTuple 0 .nil) ∧
      CallAt (fooMem 0 i) nofun (fun _ => .cs 2) 1 (fooTuple 0 .nil) := by
  have hargs : Holds (V := Empty) (fooMem 0 i) nofun [.cs 2] (fooTuple 0 .nil) :=
    .app (.struct _ 2) (.struct (a := 2) (p := fooPsc 0) rfl (by decide)) .nil .nil
  exact ⟨⟨injective_of_subsingleton _, 0, .struct _ 0, rfl, hargs⟩,
    injective_of_subsingleton _, hargs⟩

theorem fooMem_int (i : Int) :
    HeadAt (fooMem 1 i) nofun (.cs 0) (fooPsc 1) (fooTuple 1 (.app (.int i) .nil .nil)) ∧
      CallAt (fooMem 1 i) nofun (fun _ => .cs 2) 1 (fooTuple 1 (.app (.int i) .nil .nil)) := by
  have hargs : Holds (V := Empty) (fooMem 1 i) nofun [.cs 2]
      (fooTuple 1 (.app (.int i) .nil .nil)) :=
    .app (.struct _ 2) (.struct (a := 2) (p := fooPsc 1) rfl (by decide))
      (.app (.int _ i) (.int i) .nil .nil) .nil
  exact ⟨⟨injective_of_subsingleton _, 0, .struct _ 0, rfl, hargs⟩,
    injective_of_subsingleton _, hargs⟩

theorem bucketsAgree_foo :
    BucketsAgree 1 (fooPsc 1) (fooTuple 1 (.app (.int 3) .nil .nil))
        (fooTuple 1 (.app (.int 3) .nil .nil)) ∧
      SeenDecides 1 (fooPsc 1) (fooTuple 1 (.app (.int 3) .nil .nil))
        (fooTuple 1 (.app (.int 3) .nil .nil)) := by
  have hind : IndexOK (fooPsc 1).arity 1 := ⟨Nat.one_pos, le_rfl⟩
  apply (bucketsAgree_iff (fooMem_int 3).1 (fooMem_int 3).2 hind
    (.refl (Matches.refl .ieee id) _)).mpr
  refine ⟨by decide, by decide, fun l l' h h' => ?_⟩
  cases h
  cases h'
  decide

/-- A star index takes the cell after `foo()` too, which differs for a head and a call
`foo(foo())`. -/
theorem star_index_stray :
    HeadAt (fooMem 0 1) nofun (.cs 0) (fooPsc 1) (fooTuple 0 .nil) ∧
      CallAt (fooMem 0 2) nofun (fun _ => .cs 2) 1 (fooTuple 0 .nil) ∧
      IndexOK 1 (129 * 2 ^ 16) ∧
      Unifies (Matches .ieee id) (fooTuple 0 .nil) (fooTuple 0 .nil) ∧
      clauseBucket lengthWords (fooMem 0 1) 5 (129 * 2 ^ 16) (.cs 0) 17 = some (1, 17) ∧
      switch lengthWords (fooMem 0 2) 5 (fun _ => .cs 2) (129 * 2 ^ 16) 17 = some (some 2) := by
  refine ⟨(fooMem_empty 1).1, (fooMem_empty 2).2, ?_, .refl (Matches.refl _ _) _, by decide,
    by decide⟩
  intro b hb
  have hbytes : b = 129 ∨ b = 0 := by
    rcases mem_cons.mp hb with rfl | hb
    · exact .inl rfl
    · rcases mem_cons.mp hb with rfl | hb
      · exact .inr rfl
      · exact .inr (mem_singleton.mp hb)
  constructor
  · omega
  · omega

end XSBEngine.Indexing
