import XSBEngine.Library.Traversal
import XSBEngine.Terms.Encoding

/-!
# Walkers

The loops that walk over terms, such as `recvariant_trie_intern` (`XSB/emu/tries.c:2591`): pop a
cell, dereference it, check the size limits, put its symbol into the trie and push the cells
below it. A walker that runs over a finite term reads the symbols of the term, unless its check
of a compound term does not pass.
-/

namespace XSBEngine.Terms

open List PrefixTerms StackTraversal XSBEngine.Tries

/-- The local variables of a walker: the variable counter, whether the last tag was that of a
constant, and the counters for size limits. -/
structure Reader (σ : Type) where
  machine : Machine
  ctr : Nat
  constTag : Bool
  limits : σ

/-- What the walkers differ in. The check of a cell gives new counters or a reason to abort;
it may run out of fuel. -/
structure Walker (σ ρ : Type) where
  arity : Nat → Nat
  move : Bool
  byAddr : Bool
  check : Nat → Machine → σ → Cell → Option (σ ⊕ ρ)
  check_mono : ∀ n k m lim c x, check n m lim c = some x → n ≤ k → check k m lim c = some x

/-- Tags of constants. -/
def Cell.isConst : Cell → Bool
  | .const _ _ => true
  | _ => false

/-- Tags of compound terms. -/
def Cell.isCompound : Cell → Bool
  | .list _ => true
  | .struct _ => true
  | _ => false

variable {σ ρ : Type}

/-- One iteration of the loop of a walker. -/
def Walker.step (k : Walker σ ρ) (fuel : Nat) (r : Reader σ) (cell : Cell) :
    Option (Step (Reader σ) Cell Symbol ρ) :=
  match deref r.machine.mem fuel cell with
  | none => none
  | some cell =>
    match k.check fuel r.machine r.limits cell with
    | none => none
    | some (.inr reason) => some (.abort reason)
    | some (.inl limits) =>
      match visit k.arity k.move k.byAddr r.machine r.ctr cell with
      | none => none
      | some v => some (.emit v.symbol v.push ⟨v.machine, v.ctr, cell.isConst, limits⟩)

theorem Walker.lawful (k : Walker σ ρ) : Lawful k.step := by
  intro n j r c x h hle
  unfold Walker.step at h ⊢
  split at h
  next => cases h
  next cell hd =>
    rw [deref_mono hd hle]
    simp only
    split at h
    next => cases h
    next reason hc =>
      rw [k.check_mono n j _ _ _ _ hc hle]
      exact h
    next limits hc =>
      rw [k.check_mono n j _ _ _ _ hc hle]
      exact h

/-! ### Finite terms -/

/-- Number of compound terms in a notation. -/
def compounds {V : Type*} (l : List (Symbol ⊕ V)) : Nat :=
  l.countP fun x => x.elim (fun f => f.tag = .list ∨ f.tag = .struct) fun _ => false

theorem compounds_append {V : Type*} (l l' : List (Symbol ⊕ V)) :
    compounds (l ++ l') = compounds l + compounds l' :=
  countP_append

variable {k : Walker σ ρ} {m₀ : Machine} {g : Numbering Addr} {φ : Addr → Addr}
  {s s' : Reader σ} {c c' r : Cell} {stack mid rest : List Cell}
  {l l' : List (Symbol ⊕ Addr)} {Q : Nat → σ → Prop} {j : Nat}

/-- The walker stands at a compound term whose check does not pass. -/
structure Walker.Blocked (k : Walker σ ρ) (m₀ : Machine) (Q : Nat → σ → Prop) (s : Reader σ)
    (c : Cell) : Prop where
  bound : ∃ g φ, Bound m₀ s.machine g φ
  budget : ∃ j, Q (j + 1) s.limits
  cell : ∃ n c', deref s.machine.mem n c = some c' ∧ c'.isCompound = true ∧
    ∀ n limits, k.check n s.machine s.limits c' ≠ some (.inl limits)

/-- The walker reads the symbols of a notation, or is blocked on the way. -/
def Walker.Peels (k : Walker σ ρ) (m₀ : Machine) (Q : Nat → σ → Prop) (g : Numbering Addr)
    (l : List (Symbol ⊕ Addr)) (s : Reader σ) (stack rest : List Cell) (j : Nat) : Prop :=
  (∃ s' φ, Reads k.step s stack (g.symbols l) s' rest ∧ Bound m₀ s'.machine (g.after l) φ ∧
    s'.ctr = (g.after l).seen.length ∧ Later s.machine s'.machine ∧ Q j s'.limits) ∨
  ∃ l' s' c tail, Reads k.step s stack l' s' (c :: tail) ∧ k.Blocked m₀ Q s' c

theorem Walker.Peels.append (mid : List Cell) (h : k.Peels m₀ Q g l s stack mid (compounds l' + j))
    (h' : ∀ s' φ, Bound m₀ s'.machine (g.after l) φ → s'.ctr = (g.after l).seen.length →
      Later s.machine s'.machine → Q (compounds l' + j) s'.limits →
      k.Peels m₀ Q (g.after l) l' s' mid rest j) :
    k.Peels m₀ Q g (l ++ l') s stack rest j := by
  rcases h with ⟨s₁, φ, hr, hb, hc, hl, hq⟩ | ⟨x, s₁, c, tail, hr, hblocked⟩
  · rcases h' s₁ φ hb hc hl hq with ⟨s2, φ', hr', hb', hc', hl', hq'⟩ | ⟨x, s2, c, tail, hr', hbl⟩
    · refine .inl ⟨s2, φ', ?_, ?_, ?_, hl.trans hl', hq'⟩
      · rw [Numbering.symbols_append]
        exact hr.trans hr'
      · rw [Numbering.after_append]
        exact hb'
      · rw [Numbering.after_append]
        exact hc'
    · exact .inr ⟨_, s2, c, tail, hr.trans hr', hbl⟩
  · exact .inr ⟨x, s₁, c, tail, hr, hblocked⟩

/-- A blocked walker is never done. -/
theorem Walker.Blocked.not_emit (h : k.Blocked m₀ Q s c) (n : Nat) (a : Symbol)
    (push : List Cell) (s₁ : Reader σ) : k.step n s c ≠ some (.emit a push s₁) := by
  intro he
  obtain ⟨n', c', hd, -, hno⟩ := h.cell
  unfold Walker.step at he
  split at he
  next => cases he
  next cell hd' =>
    have hcell : c' = cell := by
      have h₁ := deref_mono hd (Nat.le_max_left n' n)
      have h₂ := deref_mono hd' (Nat.le_max_right n' n)
      rw [h₁] at h₂
      exact Option.some.inj h₂
    split at he
    next => cases he
    next => cases he
    next limits hc => exact hno n limits (hcell ▸ hc)

/-- One cell whose check passes. -/
theorem Walker.read_one {n n' : Nat} {limits : σ} {v : Visit}
    (hd : deref s.machine.mem n c = some c') (hc :
    k.check n' s.machine s.limits c' = some (.inl limits))
    (hv : visit k.arity k.move k.byAddr s.machine s.ctr c' = some v) :
    Reads k.step s (c :: rest) [v.symbol] ⟨v.machine, v.ctr, c'.isConst, limits⟩
      (v.push ++ rest) := by
  refine .head (n := max n n') ?_ (.refl _ _)
  rw [Walker.step, deref_mono hd (Nat.le_max_left n n')]
  simp only
  rw [k.check_mono n' (max n n') _ _ _ _ hc (Nat.le_max_right n n')]
  simp only
  rw [hv]

/-- How the check treats the cells of a finite term. The predicate bounds the number of
compound terms to come. -/
structure Walker.Checks (k : Walker σ ρ) (Q : Nat → σ → Prop) : Prop where
  simple : ∀ j m lim c, c.isCompound = false → Q j lim →
    ∃ n limits, k.check n m lim c = some (.inl limits) ∧ Q j limits
  compound : ∀ j m lim c n limits, c.isCompound = true → Q (j + 1) lim →
    k.check n m lim c = some (.inl limits) → Q j limits

section Peels

variable (hk : k.Checks Q) (hb : Bound m₀ s.machine g φ) (hctr : s.ctr = g.seen.length)
include hk hb hctr

theorem Walker.peel_var {a : Addr} (hd : Deref m₀.mem m₀.User c (.ref a))
    (hp : Pushed m₀ s.machine c c') (hq : Q j s.limits) :
    k.Peels m₀ Q g [.inr a] s (c' :: rest) rest j := by
  have ha : m₀.FreeVar a := hd.free
  obtain ⟨n, hn⟩ := hb.deref hp hd
  obtain ⟨v, φ', hv, hsym, hpush, hvctr, hbv, hlv⟩ := hb.visit_var ha k.arity k.move k.byAddr
  rw [← hctr] at hv
  obtain ⟨n', limits, hc, hq'⟩ := hk.simple j s.machine s.limits (.ref (φ a)) rfl hq
  have hr : Reads k.step s (c' :: rest) _ _ _ := Walker.read_one hn hc hv
  rw [hsym, hpush] at hr
  exact .inl ⟨_, φ', hr, hbv, hvctr, hlv, hq'⟩

theorem Walker.peel_const {tag : ConstTag} {val : Nat}
    (hd : Deref m₀.mem m₀.User c (.const tag val)) (hp : Pushed m₀ s.machine c c')
    (hq : Q j s.limits) :
    k.Peels m₀ Q g [.inl (encodeTrieConstant tag val)] s (c' :: rest) rest j := by
  obtain ⟨n, hn⟩ := hb.deref hp hd
  obtain ⟨n', limits, hc, hq'⟩ := hk.simple j s.machine s.limits (.const tag val) rfl hq
  exact .inl ⟨_, φ, Walker.read_one hn hc rfl, hb, hctr, .refl _, hq'⟩

theorem Walker.peel_compound {f : Symbol} {push : List Cell} (hr : r.isCompound = true)
    (hf : f.tag = .list ∨ f.tag = .struct) (hfollow : ∀ φ, follow φ r = r)
    (hd : Deref m₀.mem m₀.User c r) (hp : Pushed m₀ s.machine c c')
    (hv : visit k.arity k.move k.byAddr s.machine s.ctr r = some ⟨f, push, s.machine, s.ctr⟩)
    (hq : Q (compounds ([.inl f] : List (Symbol ⊕ Addr)) + j) s.limits) :
    k.Peels m₀ Q g [.inl f] s (c' :: rest) (push ++ rest) j := by
  obtain ⟨n, hn⟩ := hb.deref hp hd
  rw [hfollow] at hn
  have hone : compounds ([.inl f] : List (Symbol ⊕ Addr)) + j = j + 1 := by
    simp only [compounds, countP_singleton, Sum.elim_inl, hf, decide_true, if_true]
    omega
  rw [hone] at hq
  by_cases hpass : ∃ n limits, k.check n s.machine s.limits r = some (.inl limits)
  · obtain ⟨n', limits, hc⟩ := hpass
    exact .inl ⟨_, φ, Walker.read_one hn hc hv, hb, hctr, .refl _,
      hk.compound j _ _ _ _ _ hr hq hc⟩
  · refine .inr ⟨[], s, c', rest, .refl _ _, ⟨g, φ, hb⟩, ⟨j, hq⟩, n, r, hn, hr, ?_⟩
    exact fun n limits hc => hpass ⟨n, limits, hc⟩

end Peels

theorem pushed_later {m m' : Machine} {cs cs' : List Cell}
    (h : List.Forall₂ (Pushed m₀ m) cs cs') (hl : Later m m') :
    List.Forall₂ (Pushed m₀ m') cs cs' :=
  h.imp fun _ _ hp => hp.later hl

/-- A walker that gets its cells by value reads finite terms. -/
theorem Walker.peel (hk : k.Checks Q) (hval : k.byAddr = false) {cs cs' : List Cell}
    {t : Tuple Symbol Addr} (ht : Denotes k.arity m₀.mem m₀.User cs t)
    (hb : Bound m₀ s.machine g φ) (hctr : s.ctr = g.seen.length)
    (hp : List.Forall₂ (Pushed m₀ s.machine) cs cs') (hq : Q (compounds t.tokens + j) s.limits) :
    k.Peels m₀ Q g t.tokens s (cs' ++ rest) rest j := by
  induction ht generalizing g s φ cs' rest j with
  | nil =>
    cases hp
    exact .inl ⟨s, φ, .refl _ _, hb, hctr, .refl _, by simpa [Tuple.tokens, compounds] using hq⟩
  | @var c cs a t hd _ ih =>
    obtain ⟨c', cs', hpc, hpcs, rfl⟩ := forall₂_cons_left_iff.mp hp
    have hone := compounds_append [.inr a] t.tokens
    rw [show Tuple.tokens (.var a t) = [.inr a] ++ t.tokens from rfl] at hq ⊢
    rw [hone, Nat.add_assoc] at hq
    apply Walker.Peels.append _ (Walker.peel_var hk hb hctr hd hpc (by simpa [compounds] using hq))
    intro s₁ φ1 hb1 hctr1 hl1 hq1
    exact ih hb1 hctr1 (pushed_later hpcs hl1) hq1
  | @const c cs tag val t hd _ ih =>
    obtain ⟨c', cs', hpc, hpcs, rfl⟩ := forall₂_cons_left_iff.mp hp
    have hzero : compounds ([.inl (encodeTrieConstant tag val)] : List (Symbol ⊕ Addr)) = 0 := by
      cases tag <;> rfl
    rw [show Tuple.tokens (.app (encodeTrieConstant tag val) .nil t) =
      [.inl (encodeTrieConstant tag val)] ++ t.tokens from rfl] at hq ⊢
    rw [compounds_append, hzero, Nat.zero_add] at hq
    apply Walker.Peels.append _ (Walker.peel_const hk hb hctr hd hpc hq)
    intro s₁ φ1 hb1 hctr1 hl1 hq1
    exact ih hb1 hctr1 (pushed_later hpcs hl1) hq1
  | @list c cs a args t hd hu hu' _ _ ihargs ih =>
    obtain ⟨c', cs', hpc, hpcs, rfl⟩ := forall₂_cons_left_iff.mp hp
    have hargs : ∀ x ∈ [a, a.plus 1], m₀.User x := by simp [hu, hu']
    have hpush := hb.pushArgs hargs
    rw [show Tuple.tokens (.app encodeTrieList args t) =
      [.inl encodeTrieList] ++ (args.tokens ++ t.tokens) from rfl] at hq ⊢
    rw [compounds_append, Nat.add_assoc] at hq
    apply Walker.Peels.append (pushArgs false s.machine.mem [a, a.plus 1] ++ (cs' ++ rest))
    · exact Walker.peel_compound hk hb hctr rfl (.inl rfl) (fun _ => rfl) hd hpc
        (by rw [visit, hval]) hq
    intro s₁ φ1 hb1 hctr1 hl1 hq1
    rw [compounds_append, Nat.add_assoc] at hq1
    apply Walker.Peels.append
      _ (ihargs hb1 hctr1 (pushed_later hpush hl1) hq1)
    intro s2 φ2 hb2 hctr2 hl2 hq2
    exact ih hb2 hctr2 (pushed_later hpcs (hl1.trans hl2)) hq2
  | @struct c cs a psc args t hd hu hf _ _ ihargs ih =>
    obtain ⟨c', cs', hpc, hpcs, rfl⟩ := forall₂_cons_left_iff.mp hp
    have hargs : ∀ x ∈ strArgs a (k.arity psc), m₀.User x := by
      intro x hx
      obtain ⟨i, hi, rfl⟩ := mem_map.mp hx
      exact hu (i + 1) (mem_range.mp hi)
    have hpush := hb.pushArgs hargs
    have hvisit := hb.visit_struct (hu 0 (Nat.zero_le _)) hf k.arity k.move k.byAddr s.ctr
    rw [hval] at hvisit
    rw [show Tuple.tokens (.app (encodeTriePSC psc) args t) =
      [.inl (encodeTriePSC psc)] ++ (args.tokens ++ t.tokens) from rfl] at hq ⊢
    rw [compounds_append, Nat.add_assoc] at hq
    apply Walker.Peels.append
      (pushArgs false s.machine.mem (strArgs a (k.arity psc)) ++ (cs' ++ rest))
    · exact Walker.peel_compound hk hb hctr rfl (.inr rfl) (fun _ => rfl) hd hpc
        (by rw [hval]; exact hvisit) hq
    intro s₁ φ1 hb1 hctr1 hl1 hq1
    rw [compounds_append, Nat.add_assoc] at hq1
    apply Walker.Peels.append
      _ (ihargs hb1 hctr1 (pushed_later hpush hl1) hq1)
    intro s2 φ2 hb2 hctr2 hl2 hq2
    exact ih hb2 hctr2 (pushed_later hpcs (hl1.trans hl2)) hq2

end XSBEngine.Terms
