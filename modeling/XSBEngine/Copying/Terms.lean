import XSBEngine.Copying.Copies

/-!
# The terms that are copied

Words as finite terms over the addresses of their variables, and what a copy denotes: the term of
its source with other variables.
-/

namespace XSBEngine.Copying

open List Option XSBEngine.Heap

/-! ### Terms -/

/-- Terms. Atoms, small integers and interned terms are words. -/
inductive Tree where
  | var (a : Nat)
  | attv (a : Nat)
  | const (c : Cell)
  | list (head tail : Tree)
  | struct (psc : Psc) (args : List Tree)

mutual

/-- Change the variables of a term. -/
def Tree.rename (f : Nat → Nat) : Tree → Tree
  | .var a => .var (f a)
  | .attv a => .attv (f a)
  | .const c => .const c
  | .list head tail => .list (head.rename f) (tail.rename f)
  | .struct psc args => .struct psc (renameAll f args)

def renameAll (f : Nat → Nat) : List Tree → List Tree
  | [] => []
  | t :: ts => t.rename f :: renameAll f ts

end

theorem renameAll_eq_map (f : Nat → Nat) (ts : List Tree) :
    renameAll f ts = ts.map (Tree.rename f) := by
  induction ts with
  | nil => rfl
  | cons t ts ih => rw [renameAll, ih, map_cons]

/-- The term in the box of a floating-point number. -/
def boxTree (x : Float64) : Tree :=
  .struct boxPsc [.const (.int (boxHigh x)), .const (.int (boxMiddle x)), .const (.int (boxLow x))]

/-- The term that a word denotes, where attributed variables stand for themselves. The bound is on
the depth, with the references. -/
def denote (intern : Cell → Bool) (mem : Nat → Cell) : Nat → Cell → Option Tree
  | 0, _ => none
  | n + 1, .ref a => if mem a = .ref a then some (.var a) else denote intern mem n (mem a)
  | n + 1, .attv a => if mem a = .ref a then some (.attv a) else denote intern mem n (mem a)
  | n + 1, .list a =>
    if intern (.list a) then some (.const (.list a))
    else
      (denote intern mem n (mem a)).bind fun head =>
        (denote intern mem n (mem (a + 1))).map fun tail => .list head tail
  | n + 1, .cs a =>
    if intern (.cs a) then some (.const (.cs a))
    else
      match mem a with
      | .functor psc =>
        ((List.range psc.arity).mapM fun j => denote intern mem n (mem (a + 1 + j))).map
          (.struct psc)
      | _ => none
  | n + 1, .float x => if n = 0 then none else some (boxTree x)
  | _ + 1, .functor _ => none
  | _ + 1, c => some (.const c)

/-- A list of results that are all given another way. -/
theorem mapM_of_forall {α β γ : Type*} {g : α → Option β} {g' : α → Option γ} {f : β → γ}
    {l : List α} {ts : List β} (h : ∀ j ∈ l, ∀ t, g j = some t → g' j = some (f t))
    (hts : l.mapM g = some ts) : l.mapM g' = some (ts.map f) := by
  induction l generalizing ts with
  | nil =>
    cases hts
    rfl
  | cons j l ih =>
    rw [mapM_cons] at hts ⊢
    obtain ⟨t, ht, hts⟩ := bind_eq_some_iff.mp hts
    obtain ⟨ts', hts', he⟩ := bind_eq_some_iff.mp hts
    cases he
    rw [h j mem_cons_self t ht, ih (fun i hi => h i (mem_cons_of_mem _ hi)) hts']
    rfl

theorem mapM_congr {α β : Type*} {g g' : α → Option β} {l : List α}
    (h : ∀ j ∈ l, g' j = g j) : l.mapM g' = l.mapM g := by
  induction l with
  | nil => rfl
  | cons j l ih =>
    rw [mapM_cons, mapM_cons, h j mem_cons_self,
      ih fun i hi => h i (mem_cons_of_mem _ hi)]

theorem exists_of_mapM {α β : Type*} {g : α → Option β} {l : List α} {ts : List β}
    (hts : l.mapM g = some ts) : ∀ j ∈ l, ∃ t, g j = some t := by
  induction l generalizing ts with
  | nil => exact fun j hj => by cases hj
  | cons i l ih =>
    rw [mapM_cons] at hts
    obtain ⟨t, ht, hts⟩ := bind_eq_some_iff.mp hts
    obtain ⟨ts', hts', -⟩ := bind_eq_some_iff.mp hts
    intro j hj
    rcases mem_cons.mp hj with rfl | hj
    · exact ⟨t, ht⟩
    · exact ih hts' j hj

variable {intern : Cell → Bool} {mem mem' : Nat → Cell} {n m a : Nat} {c v w : Cell} {t : Tree}

theorem denote_mono (h : denote intern mem n c = some t) (hm : n ≤ m) :
    denote intern mem m c = some t := by
  induction n generalizing c m t with
  | zero => cases h
  | succ n ih =>
    obtain ⟨m, rfl⟩ := Nat.exists_eq_add_of_le' (Nat.one_le_of_lt hm)
    have hle : n ≤ m := Nat.le_of_succ_le_succ hm
    cases c with
    | ref a | attv a =>
      by_cases ha : mem a = .ref a
      · rw [denote, if_pos ha] at h ⊢
        exact h
      · rw [denote, if_neg ha] at h ⊢
        exact ih h hle
    | int i | string x | functor p => exact h
    | float x =>
      by_cases hn : n = 0
      · rw [denote, if_pos hn] at h
        cases h
      · rw [denote, if_neg hn] at h
        rw [denote, if_neg (by omega)]
        exact h
    | list a =>
      by_cases hi : intern (.list a) = true
      · rw [denote, if_pos hi] at h ⊢
        exact h
      · rw [denote, if_neg hi] at h ⊢
        obtain ⟨head, hhead, h⟩ := bind_eq_some_iff.mp h
        obtain ⟨tail, htail, h⟩ := map_eq_some_iff.mp h
        rw [ih hhead hle, bind_some, ih htail hle, map_some, h]
    | cs a =>
      by_cases hi : intern (.cs a) = true
      · rw [denote, if_pos hi] at h ⊢
        exact h
      · rw [denote, if_neg hi] at h ⊢
        cases hm : mem a with
        | functor psc =>
          simp only [hm] at h ⊢
          obtain ⟨ts, hts, rfl⟩ := map_eq_some_iff.mp h
          have hts' := mapM_of_forall (f := id) (fun j _ t ht => ih (t := t) ht hle) hts
          rw [hts', List.map_id, map_some]
        | _ =>
          simp only [hm] at h
          cases h

/-- A word denotes what it dereferences to. -/
theorem denote_ends (hv : EndsAt mem c v) (h : denote intern mem n c = some t) :
    denote intern mem n v = some t := by
  obtain ⟨k, hk⟩ := hv
  induction k generalizing c n with
  | zero => cases hk
  | succ k ih =>
    cases c with
    | ref a | attv a =>
      by_cases ha : mem a = .ref a
      · rw [deref, if_pos ha] at hk
        cases hk
        exact h
      · rw [deref, if_neg ha] at hk
        cases n with
        | zero => cases h
        | succ n =>
          rw [denote, if_neg ha] at h
          exact denote_mono (ih h hk) (Nat.le_succ n)
    | _ =>
      cases hk
      exact h

/-- The words that a word leads to, outside of interned terms. -/
inductive Reaches (intern : Cell → Bool) (mem : Nat → Cell) (c₀ : Cell) : Cell → Prop
  | refl : Reaches intern mem c₀ c₀
  | ref {a : Nat} : Reaches intern mem c₀ (.ref a) → mem a ≠ .ref a →
      Reaches intern mem c₀ (mem a)
  | bound {a : Nat} : Reaches intern mem c₀ (.attv a) → mem a ≠ .ref a →
      Reaches intern mem c₀ (mem a)
  | attr {a : Nat} : Reaches intern mem c₀ (.attv a) → mem a = .ref a →
      Reaches intern mem c₀ (mem (a + 1))
  | head {a : Nat} : Reaches intern mem c₀ (.list a) → intern (.list a) = false →
      Reaches intern mem c₀ (mem a)
  | tail {a : Nat} : Reaches intern mem c₀ (.list a) → intern (.list a) = false →
      Reaches intern mem c₀ (mem (a + 1))
  | arg {a j : Nat} {psc : Psc} : Reaches intern mem c₀ (.cs a) → intern (.cs a) = false →
      mem a = .functor psc → j < psc.arity → Reaches intern mem c₀ (mem (a + 1 + j))

/-- What denotes a term dereferences to something. -/
theorem ends_of_denote (h : denote intern mem n c = some t) : ∃ v, deref mem n c = some v := by
  induction n generalizing c with
  | zero => cases h
  | succ n ih =>
    cases c with
    | ref a | attv a =>
      by_cases ha : mem a = .ref a
      · exact ⟨_, if_pos ha⟩
      · rw [denote, if_neg ha] at h
        rw [deref, if_neg ha]
        exact ih h
    | _ => exact ⟨_, rfl⟩

/-! ### The terms of copies -/

namespace Setup

variable {σ : Setup} {ρ : Cell → Option Cell} {P : Nat → Prop} {s s' : CopyState}
  {x y : Nat}

/-- Where the variables are in the copy. -/
def place (ρ : Cell → Option Cell) (a : Nat) : Nat :=
  match ρ (.ref a), ρ (.attv a) with
  | some w, _ => addr w
  | none, some w => addr w
  | none, none => a

/-- All that has been recorded has been copied. -/
structure Complete (σ : Setup) (s : CopyState) (ρ : Cell → Option Cell) (P : Nat → Prop) :
    Prop where
  pairs : ∀ v w, ρ v = some w → σ.Pair s v w
  inj : ∀ v v' w w', ρ v = some w → ρ v' = some w' → isVar v = true → isVar v' = true →
    addr w = addr w' → v = v'
  apart : ∀ v w, ρ v = some w → ∀ y, addr w ≤ y → y < addr w + blockSize σ.src v →
    σ.Owned s.space y ∧ ∀ v' w', ρ v' = some w' → addr w' ≤ y →
      y < addr w' + blockSize σ.src v' → v' = v
  done : ∀ v w, ρ v = some w → σ.BlockDone s.mem ρ P v w
  owned : ∀ y, P y → σ.Owned s.space y

theorem Copied.complete (h : Copied σ s (fun _ => none) x v s' ρ) :
    Complete σ s' ρ (σ.Fresh s s') where
  pairs := h.inv.pairs
  inj := h.inv.inj
  apart := h.inv.apart
  done v w hv := h.step.done v w hv rfl
  owned _ hy := hy.1

/-- Other cells than those of the copy may change. -/
theorem Complete.congr (h : Complete σ s ρ P) (hspace : s'.space = s.space)
    (hmem : ∀ y, y = σ.top ∨ σ.Owned s.space y → s'.mem y = s.mem y) : Complete σ s' ρ P where
  pairs v w hv := by
    refine (h.pairs v w hv).mono (fun y hy => by rw [hspace]; exact hy) fun _ => ?_
    exact hmem _ (h.pairs v w hv).owned
  inj := h.inj
  apart v w hv y hle hlt := by
    rw [hspace]
    exact h.apart v w hv y hle hlt
  done v w hv :=
    (h.done v w hv).mono (fun _ _ hu => hu) fun y hy => ⟨hy, hmem y (.inr (h.owned y hy))⟩
  owned y hy := by
    rw [hspace]
    exact h.owned y hy

theorem Complete.place_ref (h : Complete σ s ρ P) (ha : ρ (.ref a) = some w) :
    w = .ref (place ρ a) ∧ s.mem (place ρ a) = .ref (place ρ a) := by
  have he : place ρ a = addr w := by simp only [place, ha]
  rw [he]
  cases h.pairs _ _ ha with
  | ref _ _ _ _ hcell => exact ⟨rfl, hcell⟩

theorem Complete.place_attv (hg : σ.Graph) (h : Complete σ s ρ P) (ha : ρ (.attv a) = some w) :
    w = .attv (place ρ a) ∧ s.mem (place ρ a) = .ref (place ρ a) := by
  have hnone : ρ (.ref a) = none := by
    cases hr : ρ (.ref a) with
    | none => rfl
    | some w' =>
      cases h.pairs _ _ hr with
      | ref hword hfree _ _ _ =>
        cases h.pairs _ _ ha with
        | attv hword' _ _ _ => exact absurd hfree (hg.separate a hword hword')
  have he : place ρ a = addr w := by simp only [place, hnone, ha]
  rw [he]
  cases h.pairs _ _ ha with
  | attv _ _ _ hcell => exact ⟨rfl, hcell⟩

/-- What is reached from a word that has been copied has been copied. -/
theorem Complete.reaches (hg : σ.Graph) (hσ : σ.Sound) (h : Complete σ s ρ P) {c0 w0 : Cell}
    (hword : c0 ∈ σ.words) (hv : EndsAt σ.src c0 v) (hi : σ.Image s.mem ρ P v w0)
    (hc : Reaches σ.K.isinternstr σ.src c0 c) :
    c ∈ σ.words ∧ ∃ v w, EndsAt σ.src c v ∧ σ.Image s.mem ρ P v w ∧
      Reaches σ.K.isinternstr s.mem w0 w := by
  have hblock : ∀ {v}, σ.leaf v = false → ∀ w, σ.Image s.mem ρ P v w → ρ v = some w := by
    intro v hl w hi
    cases hi with
    | plain _ hplain =>
      rw [Plain, if_neg (by rw [hl]; exact Bool.false_ne_true)] at hplain
      exact hplain
    | box => cases hl
  have hself : ∀ {c v}, EndsAt σ.src c v → isVar c = false → v = c := fun hv hc =>
    hv.unique ⟨1, deref_other hc 0⟩
  induction hc with
  | refl => exact ⟨hword, v, w0, hv, hi, .refl⟩
  | @ref a _ hne ih =>
    obtain ⟨hc, v, w, ⟨n, hn⟩, hi, hr⟩ := ih
    refine ⟨(hg.ref a hc).2 hne, v, w, ?_, hi, hr⟩
    cases n with
    | zero => cases hn
    | succ n =>
      rw [deref, if_neg hne] at hn
      exact ⟨n, hn⟩
  | @bound a _ hne ih =>
    obtain ⟨hc, v, w, ⟨n, hn⟩, hi, hr⟩ := ih
    refine ⟨(hg.attv a hc).2 hne, v, w, ?_, hi, hr⟩
    cases n with
    | zero => cases hn
    | succ n =>
      rw [deref, if_neg hne] at hn
      exact ⟨n, hn⟩
  | @attr a _ hfree ih =>
    obtain ⟨hc, v, w, hv, hi, hr⟩ := ih
    cases hv.unique ⟨1, by rw [deref, if_pos hfree]⟩
    refine ⟨(hg.free a hc hfree).2.1, ?_⟩
    have hρ := hblock rfl w hi
    have hp := h.pairs _ _ hρ
    cases h.done _ _ hρ with
    | attv _ _ hd =>
      obtain ⟨v, hv, hi⟩ := hd
      cases hp with
      | attv _ _ _ hcell => exact ⟨v, _, hv, hi, .attr hr hcell⟩
  | @head a _ hint ih =>
    obtain ⟨hc, v, w, hv, hi, hr⟩ := ih
    cases hself hv rfl
    refine ⟨(hg.list a hc hint).2.1.1, ?_⟩
    have hρ := hblock (v := .list a) hint w hi
    cases h.done _ _ hρ with
    | list hd0 _ hd _ =>
      obtain ⟨v, hv, hi⟩ := hd
      exact ⟨v, _, hv, hi, .head hr (hσ.intern_new _ _ (h.owned _ hd0)).1⟩
  | @tail a _ hint ih =>
    obtain ⟨hc, v, w, hv, hi, hr⟩ := ih
    cases hself hv rfl
    refine ⟨(hg.list a hc hint).2.1.2, ?_⟩
    have hρ := hblock (v := .list a) hint w hi
    cases h.done _ _ hρ with
    | list hd0 _ _ hd =>
      obtain ⟨v, hv, hi⟩ := hd
      exact ⟨v, _, hv, hi, .tail hr (hσ.intern_new _ _ (h.owned _ hd0)).1⟩
  | @arg a j psc _ hint hpsc hj ih =>
    obtain ⟨hc, v, w, hv, hi, hr⟩ := ih
    cases hself hv rfl
    obtain ⟨-, -, psc', hpsc', -, hargs⟩ := hg.cs a hc hint
    cases hpsc.symm.trans hpsc'
    refine ⟨(hargs j hj).2, ?_⟩
    have hρ := hblock (v := .cs a) hint w hi
    cases h.done _ _ hρ with
    | cs hsrc hnew hd0 hd =>
      cases hpsc.symm.trans hsrc
      obtain ⟨v, hv, hi⟩ := hd j hj
      have hown := hd0 0 (Nat.succ_pos _)
      exact ⟨v, _, hv, hi, .arg hr (hσ.intern_new _ _ (h.owned _ hown)).2 hnew hj⟩

/-- An image denotes the renamed term. -/
theorem Complete.denote_image (hg : σ.Graph) (hσ : σ.Sound) (h : Complete σ s ρ P)
    (hi : σ.Image s.mem ρ P v w) (ht : denote σ.K.isinternstr σ.src n v = some t)
    (hnormal : ∀ a, v = .ref a ∨ v = .attv a → σ.src a = .ref a) :
    denote σ.K.isinternstr s.mem n w = some (t.rename (place ρ)) := by
  induction n generalizing v w t with
  | zero => cases ht
  | succ n ih =>
    have hcell : ∀ {x y t}, σ.CellDone s.mem ρ P x y →
        denote σ.K.isinternstr σ.src n (σ.src x) = some t →
        denote σ.K.isinternstr s.mem n (s.mem y) = some (t.rename (place ρ)) := by
      rintro x y t ⟨v, hv, hi⟩ ht
      refine ih hi (denote_ends hv ht) fun a ha => ?_
      obtain ⟨k, hk⟩ := hv
      exact deref_free hk ha
    cases hi with
    | @box x d hb hbox =>
      have hn : n ≠ 0 := by
        rintro rfl
        cases ht
      obtain ⟨n, rfl⟩ := Nat.exists_eq_succ_of_ne_zero hn
      rw [denote, if_neg hn] at ht
      cases ht
      have hint := (hσ.intern_new _ _ (h.owned _ (hbox.cells 0 (by omega)))).2
      rw [denote, if_neg (by rw [Nat.add_zero] at hint; rw [hint]; exact Bool.false_ne_true)]
      simp only [hbox.functor]
      have hrange : List.range boxPsc.arity = [0, 1, 2] := rfl
      simp only [hrange, mapM_cons, mapM_nil, Nat.add_zero, hbox.high,
        show d + 1 + 1 = d + 2 from rfl, show d + 1 + 2 = d + 3 from rfl, hbox.middle, hbox.low]
      rfl
    | plain hb hplain =>
      by_cases hl : σ.leaf v = true
      · rw [Plain, if_pos hl] at hplain
        subst hplain
        cases w with
        | int i | string x =>
          cases ht
          rfl
        | float x =>
          rw [denote] at ht ⊢
          by_cases hn : n = 0
          · rw [if_pos hn] at ht
            cases ht
          · rw [if_neg hn] at ht ⊢
            cases ht
            rfl
        | list a =>
          have hint : σ.K.isinternstr (.list a) = true := hl
          rw [denote, if_pos hint] at ht ⊢
          cases ht
          rfl
        | cs a =>
          have hint : σ.K.isinternstr (.cs a) = true := hl
          rw [denote, if_pos hint] at ht ⊢
          cases ht
          rfl
        | _ => cases hl
      · rw [Plain, if_neg hl] at hplain
        cases h.pairs _ _ hplain with
        | @ref a d _ hfree _ _ hcell' =>
          rw [denote, if_pos hfree] at ht
          cases ht
          obtain ⟨he, -⟩ := h.place_ref hplain
          cases he
          rw [denote, if_pos hcell']
          rfl
        | @attv a d _ hfree _ hcell' =>
          rw [denote, if_pos hfree] at ht
          cases ht
          obtain ⟨he, -⟩ := h.place_attv hg hplain
          cases he
          rw [denote, if_pos hcell']
          rfl
        | @list a d _ hint hown =>
          rw [denote, if_neg (by rw [hint]; exact Bool.false_ne_true)] at ht
          obtain ⟨head, hhead, ht⟩ := bind_eq_some_iff.mp ht
          obtain ⟨tail, htail, rfl⟩ := map_eq_some_iff.mp ht
          cases h.done _ _ hplain with
          | list _ _ hd hd' =>
            rw [denote, if_neg (by rw [(hσ.intern_new _ _ hown).1]; exact Bool.false_ne_true),
              hcell hd hhead, bind_some, hcell hd' htail]
            rfl
        | @cs a d _ hint hown =>
          rw [denote, if_neg (by rw [hint]; exact Bool.false_ne_true)] at ht
          cases h.done _ _ hplain with
          | @cs _ _ psc hsrc hpsc _ hd =>
            simp only [hsrc] at ht
            obtain ⟨ts, hts, rfl⟩ := map_eq_some_iff.mp ht
            rw [denote, if_neg (by rw [(hσ.intern_new _ _ hown).2]; exact Bool.false_ne_true)]
            simp only [hpsc]
            have hts' := mapM_of_forall (f := Tree.rename (place ρ))
              (fun j hj t ht => hcell (hd j (mem_range.mp hj)) ht) hts
            rw [hts', map_some, Tree.rename, renameAll_eq_map]

end Setup

/-! ### Variants -/

/-- A free variable or an attributed variable that is reached. -/
def Occurs (intern : Cell → Bool) (mem : Nat → Cell) (c : Cell) (a : Nat) : Prop :=
  (Reaches intern mem c (.ref a) ∨ Reaches intern mem c (.attv a)) ∧ mem a = .ref a

/-- The word `w` of `mem'` denotes the term of `c` in `mem` with the variables that `f` gives, and
so do the attributes of its variables. -/
structure Variant (intern : Cell → Bool) (mem : Nat → Cell) (c : Cell) (mem' : Nat → Cell)
    (w : Cell) (f : Nat → Nat) : Prop where
  term : ∀ n t, denote intern mem n c = some t → denote intern mem' n w = some (t.rename f)
  attr : ∀ a, Reaches intern mem c (.attv a) → mem a = .ref a → ∀ n t,
    denote intern mem n (mem (a + 1)) = some t →
    denote intern mem' n (mem' (f a + 1)) = some (t.rename f)
  var : ∀ a, Reaches intern mem c (.ref a) → mem a = .ref a →
    Reaches intern mem' w (.ref (f a)) ∧ mem' (f a) = .ref (f a)
  attv : ∀ a, Reaches intern mem c (.attv a) → mem a = .ref a →
    Reaches intern mem' w (.attv (f a)) ∧ mem' (f a) = .ref (f a)
  inj : ∀ a b, Occurs intern mem c a → Occurs intern mem c b → f a = f b → a = b

namespace Setup

variable {σ : Setup} {ρ : Cell → Option Cell} {P : Nat → Prop} {s : CopyState}

theorem Image.of_var (hi : σ.Image s.mem ρ P v w) (hv : isVar v = true) : ρ v = some w := by
  cases hi with
  | plain _ hplain =>
    cases v with
    | ref a | attv a => exact hplain
    | _ => cases hv
  | box => cases hv

theorem Complete.image_ref (hg : σ.Graph) (hσ : σ.Sound) (h : Complete σ s ρ P)
    (hword : c ∈ σ.words) (hv : EndsAt σ.src c v) (hi : σ.Image s.mem ρ P v w)
    (ha : Reaches σ.K.isinternstr σ.src c (.ref a)) (hfree : σ.src a = .ref a) :
    ρ (.ref a) = some (.ref (place ρ a)) ∧
      Reaches σ.K.isinternstr s.mem w (.ref (place ρ a)) := by
  obtain ⟨-, v, w', hv, hi, hr⟩ := h.reaches hg hσ hword hv hi ha
  cases hv.unique ⟨1, if_pos hfree⟩
  have hρ := hi.of_var rfl
  have hw' := (h.place_ref hρ).1
  rw [hw'] at hρ hr
  exact ⟨hρ, hr⟩

theorem Complete.image_attv (hg : σ.Graph) (hσ : σ.Sound) (h : Complete σ s ρ P)
    (hword : c ∈ σ.words) (hv : EndsAt σ.src c v) (hi : σ.Image s.mem ρ P v w)
    (ha : Reaches σ.K.isinternstr σ.src c (.attv a)) (hfree : σ.src a = .ref a) :
    ρ (.attv a) = some (.attv (place ρ a)) ∧
      Reaches σ.K.isinternstr s.mem w (.attv (place ρ a)) := by
  obtain ⟨-, v, w', hv, hi, hr⟩ := h.reaches hg hσ hword hv hi ha
  cases hv.unique ⟨1, if_pos hfree⟩
  have hρ := hi.of_var rfl
  have hw' := (h.place_attv hg hρ).1
  rw [hw'] at hρ hr
  exact ⟨hρ, hr⟩

/-- What is recorded for a variable that is reached. -/
theorem Complete.occurs (hg : σ.Graph) (hσ : σ.Sound) (h : Complete σ s ρ P)
    (hword : c ∈ σ.words) (hv : EndsAt σ.src c v) (hi : σ.Image s.mem ρ P v w)
    (ha : Occurs σ.K.isinternstr σ.src c a) :
    ∃ u w', ρ u = some w' ∧ isVar u = true ∧ addr u = a ∧ addr w' = place ρ a := by
  obtain ⟨hr | hr, hfree⟩ := ha
  · exact ⟨_, _, (h.image_ref hg hσ hword hv hi hr hfree).1, rfl, rfl, rfl⟩
  · exact ⟨_, _, (h.image_attv hg hσ hword hv hi hr hfree).1, rfl, rfl, rfl⟩

/-- A complete copy is a variant. -/
theorem Complete.variant (hg : σ.Graph) (hσ : σ.Sound) (h : Complete σ s ρ P)
    (hword : c ∈ σ.words) (hv : EndsAt σ.src c v) (hi : σ.Image s.mem ρ P v w) :
    Variant σ.K.isinternstr σ.src c s.mem w (place ρ) where
  term n t ht := by
    obtain ⟨k, hk⟩ := hv
    exact h.denote_image hg hσ hi (denote_ends ⟨k, hk⟩ ht) fun a ha => deref_free hk ha
  attr a ha hfree n t ht := by
    have hρ := (h.image_attv hg hσ hword hv hi ha hfree).1
    cases h.done _ _ hρ with
    | attv _ _ hd =>
      obtain ⟨u, ⟨k, hk⟩, hiu⟩ := hd
      exact h.denote_image hg hσ hiu (denote_ends ⟨k, hk⟩ ht) fun b hb => deref_free hk hb
  var a ha hfree := by
    obtain ⟨hρ, hr⟩ := h.image_ref hg hσ hword hv hi ha hfree
    exact ⟨hr, (h.place_ref hρ).2⟩
  attv a ha hfree := by
    obtain ⟨hρ, hr⟩ := h.image_attv hg hσ hword hv hi ha hfree
    exact ⟨hr, (h.place_attv hg hρ).2⟩
  inj a b ha hb heq := by
    obtain ⟨u, w', hρ, hu, hua, hw'⟩ := h.occurs hg hσ hword hv hi ha
    obtain ⟨u', w'', hρ', hu', hub, hw''⟩ := h.occurs hg hσ hword hv hi hb
    cases h.inj u u' w' w'' hρ hρ' hu hu' (by rw [hw', hw'', heq])
    rw [← hua, hub]

/-- The variables of a copy are in its cells. -/
theorem Complete.place_owned (hg : σ.Graph) (hσ : σ.Sound) (h : Complete σ s ρ P)
    (hword : c ∈ σ.words) (hv : EndsAt σ.src c v) (hi : σ.Image s.mem ρ P v w)
    (ha : Occurs σ.K.isinternstr σ.src c a) :
    place ρ a = σ.top ∨ σ.Owned s.space (place ρ a) := by
  obtain ⟨u, w', hρ, -, -, hw'⟩ := h.occurs hg hσ hword hv hi ha
  rw [← hw']
  exact (h.pairs _ _ hρ).owned

end Setup

end XSBEngine.Copying
