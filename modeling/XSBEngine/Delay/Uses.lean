import XSBEngine.Delay.Elements

/-!
# The uses of delay elements

What `remove_pnde` and `record_de_usage` keep: every list of entries is linked both ways and has
one entry for each of the recorded elements that refer to its owner.
-/

namespace XSBEngine.Delay

open Function Library List

/-- The lists of entries are those of the recorded elements. -/
structure Uses (t : PndeTable) (e : DeTable) (own : Owner → List Nat)
    (recorded : Nat → Nat → Prop) : Prop where
  holds : t.pool.Holds own
  head : ∀ o, t.head o = (own o).head?
  back : ∀ o, BackLinked t.prev (own o)
  entry : ∀ dl de, recorded dl de →
    e.pnde de ∈ own (e.owner de) ∧ t.de (e.pnde de) = de ∧ t.dl (e.pnde de) = dl
  element : ∀ o p, p ∈ own o →
    recorded (t.dl p) (t.de p) ∧ e.pnde (t.de p) = p ∧ e.owner (t.de p) = o

variable {t : PndeTable} {e : DeTable} {own : Owner → List Nat} {recorded : Nat → Nat → Prop}
  {dl de p : Nat} {o : Owner}

theorem Uses.setPool (h : Uses t e own recorded) (pool : Pool) :
    Uses t { e with pool := pool } own recorded :=
  ⟨h.holds, h.head, h.back, h.entry, h.element⟩

/-- The other elements may change. -/
theorem Uses.congr_des {e' : DeTable} (h : Uses t e own recorded)
    (he : ∀ dl de, recorded dl de → e'.pnde de = e.pnde de ∧ e'.owner de = e.owner de) :
    Uses t e' own recorded where
  holds := h.holds
  head := h.head
  back := h.back
  entry dl de hde := by
    rw [(he dl de hde).1, (he dl de hde).2]
    exact h.entry dl de hde
  element o p hp := by
    obtain ⟨hde, hp⟩ := h.element o p hp
    rw [(he _ _ hde).1, (he _ _ hde).2]
    exact ⟨hde, hp⟩

theorem Uses.congr {recorded' : Nat → Nat → Prop} (h : Uses t e own recorded)
    (hrecorded : ∀ dl de, recorded' dl de ↔ recorded dl de) : Uses t e own recorded' where
  holds := h.holds
  head := h.head
  back := h.back
  entry dl de hde := h.entry dl de ((hrecorded dl de).mp hde)
  element o p hp := by
    obtain ⟨hde, hrest⟩ := h.element o p hp
    exact ⟨(hrecorded _ _).mpr hde, hrest⟩

/-- An element is in one list only. -/
theorem Uses.dl_unique {dl' : Nat} (h : Uses t e own recorded) (hde : recorded dl de)
    (hde' : recorded dl' de) : dl = dl' :=
  (h.entry dl de hde).2.2.symm.trans (h.entry dl' de hde').2.2

/-- The list of the owner of a recorded element is not empty. -/
theorem Uses.head_isSome (h : Uses t e own recorded) (hde : recorded dl de) :
    t.head (e.owner de) ≠ none := by
  have hmem := (h.entry dl de hde).1
  rw [h.head]
  intro hnone
  rw [List.head?_eq_none_iff.mp hnone] at hmem
  exact not_mem_nil hmem

section Remove

/-- `remove_pnde` takes an entry off its list, whether it is the first one or not. -/
theorem Uses.removePnde_lists {l1 l2 : List Nat} (h : Uses t e own recorded)
    (ho : own o = l1 ++ p :: l2) :
    (t.removePnde o p).pool.Holds (update own o (l1 ++ l2)) ∧
      (t.removePnde o p).head o = (l1 ++ l2).head? ∧
      BackLinked (t.removePnde o p).prev (l1 ++ l2) := by
  have hnodup := h.holds.nodup o
  have hlinked := h.holds.linked o
  have hback := h.back o
  rw [ho] at hnodup hlinked hback
  have hnext : t.pool.next p = l2.head? := hlinked.next_head
  rcases eq_nil_or_concat l1 with rfl | ⟨l, b, rfl⟩
  case inl =>
    -- the first entry: the links back are left as they are
    have hhead : t.head o = some p := by rw [h.head, ho]; rfl
    rw [PndeTable.removePnde, if_pos hhead]
    exact ⟨h.holds.releaseHead ho, (update_self ..).trans hnext, hback.pop⟩
  case inr =>
    rw [concat_eq_append, append_assoc] at ho hnodup hback hlinked ⊢
    have hhead : t.head o ≠ some p := by
      rw [h.head, ho]
      intro heq
      cases l with
      | nil =>
        obtain rfl : b = p := Option.some.inj heq
        exact (nodup_cons.mp hnodup).1 mem_cons_self
      | cons c l =>
        obtain rfl : c = p := Option.some.inj heq
        exact (nodup_cons.mp hnodup).1 (by simp)
    have hprev : t.prev p = some b := hback.prev_eq
    have hafter := h.holds.releaseAfter ho
    have hunlink := hback.unlink hnodup
    simp only [PndeTable.removePnde, if_neg hhead, hprev]
    rw [hprev, ← hnext] at hunlink
    refine ⟨hafter, ?_, hunlink⟩
    rw [h.head, ho]
    cases l <;> rfl

/-- The fields of the entries and the heads of the other lists are kept. -/
theorem removePnde_frame (t : PndeTable) (o : Owner) (p : Nat) :
    (t.removePnde o p).dl = t.dl ∧ (t.removePnde o p).de = t.de ∧
      ∀ o', o' ≠ o → (t.removePnde o p).head o' = t.head o' := by
  unfold PndeTable.removePnde
  split
  next => exact ⟨rfl, rfl, fun o' ho => update_of_ne ho ..⟩
  next => exact ⟨rfl, rfl, fun _ _ => rfl⟩

/-- The links back on the other lists are kept. -/
theorem Uses.removePnde_back (h : Uses t e own recorded) (hp : p ∈ own o) {o' : Owner}
    (ho : o' ≠ o) : BackLinked (t.removePnde o p).prev (own o') := by
  unfold PndeTable.removePnde
  split
  next => exact h.back o'
  next =>
    apply (h.back o').congr
    intro x hx
    refine (setPrev_of_ne fun heq => ?_).symm
    obtain ⟨l1, l2, happend⟩ := append_of_mem hp
    have hlinked := h.holds.linked o
    rw [happend] at hlinked
    have hnext : l2.head? = some x := hlinked.next_head.symm.trans heq
    have hmem : x ∈ own o := by
      rw [happend]
      exact mem_append_right l1 (mem_cons_of_mem p (mem_of_head? hnext))
    exact ho (h.holds.disjoint (mem_of_mem_tail hx) hmem)

/-- The entry of a recorded element is removed. -/
theorem Uses.removePnde (h : Uses t e own recorded) (hde : recorded dl de) :
    ∃ own', Uses (t.removePnde (e.owner de) (e.pnde de)) e own'
        (fun dl' de' => recorded dl' de' ∧ de' ≠ de) := by
  obtain ⟨hp, hpde, -⟩ := h.entry dl de hde
  obtain ⟨l1, l2, happend⟩ := append_of_mem hp
  obtain ⟨hholds, hhead, hback⟩ := h.removePnde_lists happend
  have hmem := h.holds.mem_erase happend
  obtain ⟨hdl, hde', hothers⟩ := removePnde_frame t (e.owner de) (e.pnde de)
  refine ⟨_, hholds, fun o => ?_, fun o => ?_, ?_, ?_⟩
  · rcases eq_or_ne o (e.owner de) with rfl | ho
    · rwa [update_self]
    · rw [update_of_ne ho, hothers o ho]
      exact h.head o
  · rcases eq_or_ne o (e.owner de) with rfl | ho
    · rwa [update_self]
    · rw [update_of_ne ho]
      exact h.removePnde_back hp ho
  · rintro dl' x ⟨hx, hne⟩
    obtain ⟨hmem', hxde, hxdl⟩ := h.entry dl' x hx
    rw [hde', hdl]
    refine ⟨(hmem _ _).mpr ⟨hmem', fun heq => hne ?_⟩, hxde, hxdl⟩
    rw [← hxde, heq, hpde]
  · intro o x hx
    obtain ⟨hx, hne⟩ := (hmem o x).mp hx
    obtain ⟨hrec, hxp, hxo⟩ := h.element o x hx
    rw [hde', hdl]
    refine ⟨⟨hrec, fun heq => hne ?_⟩, hxp, hxo⟩
    rw [← hxp, heq]

/-- With and without the test of `release_all_dls`, which never holds. -/
theorem Uses.removeFor (h : Uses t e own recorded) (hde : recorded dl de) (check : Bool) :
    t.removeFor check e de = t.removePnde (e.owner de) (e.pnde de) := by
  rw [PndeTable.removeFor, if_neg]
  rintro ⟨-, -, hnone⟩
  exact h.head_isSome hde hnone

end Remove

section Record

/-- An element that is not recorded gets an entry. -/
theorem Uses.record (h : Uses t e own recorded) (hde : ∀ dl', ¬ recorded dl' de) (dl : Nat) :
    Uses (t.record (e.owner de) dl de).2
      { e with pnde := update e.pnde de (t.record (e.owner de) dl de).1 }
      (update own (e.owner de) ((t.record (e.owner de) dl de).1 :: own (e.owner de)))
      (fun dl' de' => recorded dl' de' ∨ dl' = dl ∧ de' = de) := by
  set pnde := (t.record (e.owner de) dl de).1 with hpnde
  obtain ⟨hholds, hfresh⟩ := h.holds.newEntry (e.owner de)
  have hmem : ∀ o x, x ∈ update own (e.owner de) (pnde :: own (e.owner de)) o →
      x = pnde ∧ o = e.owner de ∨ x ∈ own o := by
    intro o x hx
    rcases eq_or_ne o (e.owner de) with rfl | ho
    · rw [update_self] at hx
      exact (mem_cons.mp hx).imp (fun heq => ⟨heq, rfl⟩) id
    · rw [update_of_ne ho] at hx
      exact Or.inr hx
  have hne : ∀ o x, x ∈ own o → x ≠ pnde := by
    rintro o x hx rfl
    exact hfresh o hx
  constructor
  case holds =>
    show ((t.pool.newEntry.2.setNext pnde (t.head (e.owner de)))).Holds _
    rw [h.head]
    exact hholds
  case head =>
    intro o
    show update t.head (e.owner de) (some pnde) o = _
    rcases eq_or_ne o (e.owner de) with rfl | ho
    · rw [update_self, update_self]
      rfl
    · rw [update_of_ne ho, update_of_ne ho]
      exact h.head o
  case back =>
    intro o
    show BackLinked (setPrev (update t.prev pnde none) (t.head (e.owner de)) (some pnde)) _
    have hback : ∀ o', BackLinked (update t.prev pnde none) (own o') := by
      intro o'
      apply (h.back o').congr
      intro x hx
      exact (update_of_ne (hne o' x (mem_of_mem_tail hx)) ..).symm
    rw [h.head]
    rcases eq_or_ne o (e.owner de) with rfl | ho
    · rw [update_self]
      exact (hback _).push (h.holds.nodup _)
    · rw [update_of_ne ho]
      apply (hback o).congr
      intro x hx
      refine (setPrev_of_ne fun heq => ho ?_).symm
      exact h.holds.disjoint (mem_of_mem_tail hx) (mem_of_head? heq)
  case entry =>
    rintro dl' x (hx | ⟨rfl, rfl⟩)
    · have hxde : x ≠ de := by
        rintro rfl
        exact hde dl' hx
      obtain ⟨hin, hxp, hxdl⟩ := h.entry dl' x hx
      have hxne := hne _ _ hin
      show update e.pnde de pnde x ∈
          update own (e.owner de) (pnde :: own (e.owner de)) (e.owner x) ∧
        update t.de pnde de (update e.pnde de pnde x) = x ∧
        update t.dl pnde dl (update e.pnde de pnde x) = dl'
      rw [update_of_ne hxde, update_of_ne hxne, update_of_ne hxne]
      refine ⟨?_, hxp, hxdl⟩
      rcases eq_or_ne (e.owner x) (e.owner de) with heq | ho
      · rw [heq, update_self]
        exact mem_cons_of_mem pnde (heq ▸ hin)
      · rwa [update_of_ne ho]
    · show update e.pnde x pnde x ∈
          update own (e.owner x) (pnde :: own (e.owner x)) (e.owner x) ∧
        update t.de pnde x (update e.pnde x pnde x) = x ∧
        update t.dl pnde dl' (update e.pnde x pnde x) = dl'
      simp only [update_self, mem_cons_self, true_and]
  case element =>
    intro o x hx
    show (recorded (update t.dl pnde dl x) (update t.de pnde de x) ∨
        update t.dl pnde dl x = dl ∧ update t.de pnde de x = de) ∧
      update e.pnde de pnde (update t.de pnde de x) = x ∧
      e.owner (update t.de pnde de x) = o
    rcases hmem o x hx with ⟨rfl, rfl⟩ | hin
    · simp only [update_self, and_self, or_true]
    · have hxne := hne o x hin
      obtain ⟨hrec, hxp, hxo⟩ := h.element o x hin
      have hxde : t.de x ≠ de := fun heq => hde _ (heq ▸ hrec)
      rw [update_of_ne hxne, update_of_ne hxne, update_of_ne hxde]
      exact ⟨Or.inl hrec, hxp, hxo⟩

end Record

end XSBEngine.Delay
