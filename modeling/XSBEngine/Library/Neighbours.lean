import Mathlib

/-!
# Repeated elements of sorted lists

Which repetitions are left when every element that is equal to the one in front of it is dropped,
and how lists may be arranged by a preorder.
-/

namespace XSBEngine.Library

open List

open scoped List

variable {α : Type*}

section DropRepeats

variable [DecidableEq α] {a b x prev : α} {l w : List α}

/-- The elements that differ from the one in front of them. -/
def keepNew (prev : α) : List α → List α
  | [] => []
  | x :: xs => if x = prev then keepNew x xs else x :: keepNew x xs

/-- The list without the elements that are equal to the one in front of them. -/
def dropRepeats : List α → List α
  | [] => []
  | x :: xs => x :: keepNew x xs

theorem keepNew_sublist (prev : α) (l : List α) : keepNew prev l <+ l := by
  induction l generalizing prev with
  | nil => exact List.Sublist.slnil
  | cons x xs ih =>
    rw [keepNew]
    split
    · exact (ih x).cons x
    · exact (ih x).cons_cons x

theorem dropRepeats_sublist (l : List α) : dropRepeats l <+ l := by
  cases l with
  | nil => exact List.Sublist.slnil
  | cons x xs => exact (keepNew_sublist x xs).cons_cons x

theorem mem_keepNew (h : a ∈ l) : a = prev ∨ a ∈ keepNew prev l := by
  induction l generalizing prev with
  | nil => cases h
  | cons x xs ih =>
    rw [keepNew]
    split
    · next heq =>
      rcases mem_cons.mp h with rfl | hmem
      · exact Or.inl heq
      · rw [← heq]
        exact ih hmem
    · rcases mem_cons.mp h with rfl | hmem
      · exact Or.inr mem_cons_self
      · exact Or.inr (mem_cons.mpr (ih hmem))

/-- No element is lost. -/
theorem mem_dropRepeats : a ∈ dropRepeats l ↔ a ∈ l := by
  constructor
  · intro h
    exact (dropRepeats_sublist l).subset h
  · intro h
    cases l with
    | nil => cases h
    | cons x xs =>
      rcases mem_cons.mp h with rfl | hmem
      · exact mem_cons_self
      · exact mem_cons.mpr (mem_keepNew hmem)

/-- Elements in which neighbours differ are kept. -/
theorem sublist_keepNew (hw : List.IsChain (· ≠ ·) (prev :: w)) (h : w <+ l) :
    w <+ keepNew prev l := by
  induction l generalizing prev w with
  | nil => exact h
  | cons x xs ih =>
    cases w with
    | nil => exact nil_sublist _
    | cons y ys =>
      obtain ⟨hne, hys⟩ := isChain_cons_cons.mp hw
      rw [keepNew]
      split
      · next heq =>
        -- the first element is not the one that is dropped
        have htail : y :: ys <+ xs := by
          cases h with
          | cons _ h => exact h
          | cons_cons _ h => exact absurd heq.symm hne
        rw [heq]
        exact ih hw htail
      · by_cases hxy : x = y
        · subst hxy
          exact (ih hys (cons_sublist_cons.mp h)).cons_cons x
        · have htail : y :: ys <+ xs := by
            cases h with
            | cons _ h => exact h
            | cons_cons _ h => exact absurd rfl hxy
          exact (ih (isChain_cons_cons.mpr ⟨hxy, hys⟩) htail).cons x

/-- Without repetitions apart, none are left. -/
theorem nodup_keepNew (h : ∀ a b, [a, b, a] <+ prev :: l → b = a) :
    (prev :: keepNew prev l).Nodup := by
  induction l generalizing prev with
  | nil => exact nodup_cons.mpr ⟨not_mem_nil, nodup_nil⟩
  | cons x xs ih =>
    rw [keepNew]
    split
    · next heq =>
      subst heq
      exact ih fun a b hsub => h a b (hsub.cons x)
    · next hne =>
      have hrest : (x :: keepNew x xs).Nodup := ih fun a b hsub => h a b (hsub.cons prev)
      refine nodup_cons.mpr ⟨?_, hrest⟩
      intro hmem
      rcases mem_cons.mp hmem with heq | hmem
      · exact hne heq.symm
      · have hprev : prev ∈ xs := (keepNew_sublist x xs).subset hmem
        exact hne (h prev x
          ((singleton_sublist.mpr hprev).cons_cons x |>.cons_cons prev))

/-- No repetitions are left exactly if all elements that are equal stand together. -/
theorem nodup_dropRepeats_iff :
    (dropRepeats l).Nodup ↔ ∀ a b, [a, b, a] <+ l → b = a := by
  cases l with
  | nil =>
    refine ⟨fun _ a b hsub => ?_, fun _ => nodup_nil⟩
    cases hsub
  | cons x xs =>
    constructor
    · intro hnodup a b hsub
      by_contra hne
      have hkept : [a, b, a] <+ dropRepeats (x :: xs) := by
        by_cases hxa : x = a
        · subst hxa
          apply List.Sublist.cons_cons
          apply sublist_keepNew _ (cons_sublist_cons.mp hsub)
          simp only [isChain_cons_cons]
          exact ⟨Ne.symm hne, hne, .singleton x⟩
        · apply List.Sublist.cons
          have htail : [a, b, a] <+ xs := by
            cases hsub with
            | cons _ h => exact h
            | cons_cons _ h => exact absurd rfl hxa
          apply sublist_keepNew _ htail
          simp only [isChain_cons_cons]
          exact ⟨hxa, Ne.symm hne, hne, .singleton a⟩
      have hnodup' := hnodup.sublist hkept
      simp at hnodup'
    · exact nodup_keepNew

end DropRepeats

section Arrangements

variable {le : α → α → Prop} {l : List α} {a b : α}

/-- A preorder on the elements of a list in which all of them can be compared. -/
structure Preorders (le : α → α → Prop) (l : List α) : Prop where
  trans : ∀ a ∈ l, ∀ b ∈ l, ∀ c ∈ l, le a b → le b c → le a c
  total : ∀ a ∈ l, ∀ b ∈ l, le a b ∨ le b a

theorem Preorders.mono {l' : List α} (h : Preorders le l) (hsub : l' ⊆ l) : Preorders le l' where
  trans a ha b hb c hc := h.trans a (hsub ha) b (hsub hb) c (hsub hc)
  total a ha b hb := h.total a (hsub ha) b (hsub hb)

/-- The list can be put in order. -/
theorem Preorders.exists_pairwise (h : Preorders le l) :
    ∃ table : List α, table.Perm l ∧ table.Pairwise le := by
  classical
  let r : {x // x ∈ l} → {x // x ∈ l} → Bool := fun x y => le x.1 y.1
  have hsorted : (l.attach.mergeSort r).Pairwise fun x y => r x y := by
    apply pairwise_mergeSort
    · intro x y z hxy hyz
      simp only [r, decide_eq_true_eq] at hxy hyz ⊢
      exact h.trans x.1 x.2 y.1 y.2 z.1 z.2 hxy hyz
    · intro x y
      simp only [r, Bool.or_eq_true, decide_eq_true_eq]
      exact h.total x.1 x.2 y.1 y.2
  refine ⟨(l.attach.mergeSort r).map Subtype.val, ?_, ?_⟩
  · have hperm := (mergeSort_perm l.attach r).map Subtype.val
    rwa [attach_map_subtype_val] at hperm
  · apply pairwise_map.mpr
    exact hsorted.imp fun hle => by simpa only [r, decide_eq_true_eq] using hle

/-- Two elements that can stand in either order can stand around one another if one of them is
there twice. -/
theorem Preorders.exists_apart [DecidableEq α] (h : Preorders le l) (hb : b ∈ l) (hne : b ≠ a)
    (hab : le a b) (hba : le b a) (hcount : 2 ≤ l.count a) :
    ∃ table : List α, table.Perm l ∧ table.Pairwise le ∧ [a, b, a] <+ table := by
  classical
  have ha : a ∈ l := count_pos_iff.mp (by omega)
  obtain ⟨rest, hperm⟩ : ∃ rest, l.Perm (a :: b :: a :: rest) := by
    have hfirst := perm_cons_erase ha
    have ha' : a ∈ l.erase a := by
      apply count_pos_iff.mp
      rw [count_erase_self]
      omega
    have hsecond := perm_cons_erase ha'
    have hb' : b ∈ (l.erase a).erase a :=
      (mem_erase_of_ne hne).mpr ((mem_erase_of_ne hne).mpr hb)
    have hthird := perm_cons_erase hb'
    refine ⟨((l.erase a).erase a).erase b, hfirst.trans ?_⟩
    exact ((hsecond.trans (hthird.cons a)).trans (List.Perm.swap b a _)).cons a
  have hmem : ∀ x ∈ rest, x ∈ l := fun x hx => hperm.mem_iff.mpr (by simp [hx])
  obtain ⟨table, htable, hsorted⟩ := (h.mono hmem).exists_pairwise
  have hmem' : ∀ x ∈ table, x ∈ l := fun x hx => hmem x (htable.mem_iff.mp hx)
  have haa : le a a := (h.total a ha a ha).elim id id
  have hle : ∀ x ∈ l, le x b → le x a := fun x hx hxb => h.trans x hx b hb a ha hxb hba
  -- what is not below `a` stands behind it
  let low := table.filter fun x => ¬ le a x
  let high := table.filter fun x => le a x
  have hlow : ∀ x ∈ low, x ∈ l ∧ le x a := by
    intro x hx
    obtain ⟨hx, hnot⟩ := mem_filter.mp hx
    refine ⟨hmem' x hx, (h.total x (hmem' x hx) a ha).resolve_right ?_⟩
    simpa using hnot
  have hhigh : ∀ x ∈ high, x ∈ l ∧ le a x := by
    intro x hx
    obtain ⟨hx, hge⟩ := mem_filter.mp hx
    exact ⟨hmem' x hx, by simpa using hge⟩
  have hbhigh : ∀ x ∈ high, le b x := fun x hx =>
    h.trans b hb a ha x (hhigh x hx).1 hba (hhigh x hx).2
  refine ⟨low ++ a :: b :: a :: high, ?_, ?_, ?_⟩
  · have hsplit : (low ++ high).Perm table := by
      have hperm' := filter_append_perm (fun x => decide ¬ le a x) table
      refine List.Perm.trans (List.Perm.of_eq ?_) hperm'
      simp only [low, high]
      congr 2
      funext x
      simp
    have hmove : (low ++ a :: b :: a :: high).Perm (a :: b :: a :: (low ++ high)) :=
      (perm_middle.trans (List.Perm.cons a (perm_middle.trans
        (List.Perm.cons b perm_middle))))
    exact hmove.trans (((((hsplit.trans htable).cons a).cons b).cons a).trans hperm.symm)
  · refine pairwise_append.mpr ⟨hsorted.filter _, ?_, ?_⟩
    · refine pairwise_cons.mpr ⟨?_, pairwise_cons.mpr ⟨?_, pairwise_cons.mpr
        ⟨fun x hx => (hhigh x hx).2, hsorted.filter _⟩⟩⟩
      · intro x hx
        rcases mem_cons.mp hx with rfl | hx
        · exact hab
        · rcases mem_cons.mp hx with rfl | hx
          · exact haa
          · exact (hhigh x hx).2
      · intro x hx
        rcases mem_cons.mp hx with rfl | hx
        · exact hba
        · exact hbhigh x hx
    · intro x hx y hy
      obtain ⟨hxl, hxa⟩ := hlow x hx
      rcases mem_cons.mp hy with rfl | hy
      · exact hxa
      · rcases mem_cons.mp hy with rfl | hy
        · exact h.trans x hxl a ha y hb hxa hab
        · rcases mem_cons.mp hy with rfl | hy
          · exact hxa
          · exact h.trans x hxl a ha y (hhigh y hy).1 hxa (hhigh y hy).2
  · have hfront : [a, b, a] <+ a :: b :: a :: high :=
      (((nil_sublist high).cons_cons a).cons_cons b).cons_cons a
    exact hfront.trans (sublist_append_right low _)

end Arrangements

section Keys

variable {κ : Type*} [LinearOrder κ]

/-- Merge sort by a key is sorted, and the elements of one key keep their order. -/
theorem mergeSort_key (f : α → κ) (l : List α) :
    (l.mergeSort fun a b => decide (f a ≤ f b)).Pairwise (fun a b => f a ≤ f b) ∧
      ∀ k, (l.mergeSort fun a b => decide (f a ≤ f b)).filter (fun a => f a = k) =
        l.filter fun a => f a = k := by
  have htrans : ∀ a b c, decide (f a ≤ f b) = true → decide (f b ≤ f c) = true →
      decide (f a ≤ f c) = true := by
    intro a b c hab hbc
    simp only [decide_eq_true_eq] at hab hbc ⊢
    exact le_trans hab hbc
  have htotal : ∀ a b, (decide (f a ≤ f b) || decide (f b ≤ f a)) = true := by
    intro a b
    simp only [Bool.or_eq_true, decide_eq_true_eq]
    exact le_total _ _
  refine ⟨(pairwise_mergeSort htrans htotal l).imp of_decide_eq_true, fun k => ?_⟩
  have hsub : (l.filter fun a => f a = k) <+ l.mergeSort fun a b => decide (f a ≤ f b) := by
    apply sublist_mergeSort htrans htotal
    · apply pairwise_of_forall_mem_list
      intro a ha b hb
      have ha' := (mem_filter.mp ha).2
      have hb' := (mem_filter.mp hb).2
      simp only [decide_eq_true_eq] at ha' hb' ⊢
      rw [ha', hb']
    · exact filter_sublist
  have hfilter := hsub.filter fun a => f a = k
  simp only [filter_filter, Bool.and_self] at hfilter
  exact (hfilter.eq_of_length ((mergeSort_perm l _).symm.filter _).length_eq).symm

end Keys

end XSBEngine.Library
