import XSBEngine.Library.Intervals
import XSBEngine.Ranges.RangeTree

/-!
# The shape of a range tree

The facts `rt/6` of a tree form a tree: the intervals of a node cover the interval that leads to it.
A node is split by giving a part of its facts another identifier and dividing the interval above.
-/

namespace XSBEngine.Ranges

open Function Set XSBEngine.Library

variable {κ : Type*} [LinearOrder κ] {R R' : Set (Rt κ)} {a b k mid : κ} {f g : Rt κ}
  {level : Ptr → Nat} {id m m₁ m₂ : Ptr} {p q : Node κ}

/-- The intervals of a node. -/
def kids (R : Set (Rt κ)) (id : Ptr) : Set (Node κ) := {p | ∃ leaf, ⟨id, leaf, p⟩ ∈ R}

/-- The interval of a fact. -/
def Rt.interval (f : Rt κ) : Set κ := Ico f.node.lo f.node.hi

/-- The facts are those of a tree, with the height of each node. -/
structure Shape (a b : κ) (R : Set (Rt κ)) (level : Ptr → Nat) : Prop where
  root : Tiles Node.lo Node.hi (kids R .root) a b
  inner : ∀ f ∈ R, f.leaf = false →
    Tiles Node.lo Node.hi (kids R f.node.ptr) f.node.lo f.node.hi
  parent : ∀ f ∈ R, f.id ≠ .root → ∃ g ∈ R, g.leaf = false ∧ g.node.ptr = f.id
  inj : ∀ f ∈ R, ∀ g ∈ R, f.node.ptr = g.node.ptr → f = g
  not_root : ∀ f ∈ R, f.node.ptr ≠ .root
  level_leaf : ∀ f ∈ R, f.leaf = true → level f.id = 0
  level_inner : ∀ f ∈ R, f.leaf = false → level f.id = level f.node.ptr + 1
  level_lt : ∀ f ∈ R, f.id ≠ .root → level f.id < level .root

/-- The identifier is not used. -/
def Unused (R : Set (Rt κ)) (m : Ptr) : Prop := m ≠ .root ∧ ∀ g ∈ R, g.node.ptr ≠ m

omit [LinearOrder κ] in
theorem mem_kids (hf : f ∈ R) : f.node ∈ kids R f.id := ⟨f.leaf, hf⟩

namespace Shape

section

variable (h : Shape a b R level)
include h

theorem leaf_eq (hf : f ∈ R) (hg : g ∈ R) (hid : f.id = g.id) :
    f.leaf = g.leaf := by
  have hone : ∀ f ∈ R, ∀ g ∈ R, f.id = g.id → f.leaf = true → g.leaf = true := by
    intro f hf g hg hid hleaf
    by_contra hinner
    have hzero := h.level_leaf f hf hleaf
    have hsucc := h.level_inner g hg (Bool.not_eq_true _ ▸ hinner)
    rw [hid] at hzero
    omega
  cases hleaf : f.leaf with
  | true => exact (hone f hf g hg hid hleaf).symm
  | false =>
    cases hleaf' : g.leaf with
    | true => rw [hone g hg f hf hid.symm hleaf'] at hleaf; exact hleaf.symm
    | false => rfl

theorem id_ne_unused (hm : Unused R m) (hf : f ∈ R) : f.id ≠ m := by
  rintro rfl
  obtain ⟨g, hg, -, hptr⟩ := h.parent f hf hm.1
  exact hm.2 g hg hptr

theorem id_ne_ptr (hf : f ∈ R) : f.id ≠ f.node.ptr := by
  intro he
  obtain ⟨g, hg, hinner, hptr⟩ := h.parent f hf (he ▸ h.not_root f hf)
  obtain rfl := h.inj g hg f hf (hptr.trans he)
  have hlevel := h.level_inner g hg hinner
  rw [he] at hlevel
  omega

/-- A node is led to by one fact, which is not one of a leaf. -/
theorem inner_of_id (hf : f ∈ R) (hg : g ∈ R) (hid : g.id = f.node.ptr) :
    f.leaf = false := by
  obtain ⟨f', hf', hinner, hptr⟩ := h.parent g hg (hid ▸ h.not_root f hf)
  rw [← h.inj f' hf' f hf (hptr.trans hid)]
  exact hinner

end

/-! ### Points -/

section

variable (h : Shape a b R level)
include h

/-- The parent of a fact has the points of the fact. -/
theorem exists_parent (hf : f ∈ R) (hid : f.id ≠ .root)
    (hk : k ∈ f.interval) :
    ∃ g ∈ R, g.leaf = false ∧ g.node.ptr = f.id ∧ k ∈ g.interval := by
  obtain ⟨g, hg, hinner, hptr⟩ := h.parent f hf hid
  refine ⟨g, hg, hinner, hptr, (h.inner g hg hinner).mem_of_mem ?_ hk⟩
  rw [hptr]
  exact mem_kids hf

theorem eq_of_kids (hf : f ∈ R) (hg : g ∈ R)
    (he : f.node = g.node) : f = g :=
  h.inj f hf g hg (congrArg Node.ptr he)

/-- At each height one fact has a point. -/
theorem unique_of_level (hf : f ∈ R) (hg : g ∈ R)
    (hlevel : level f.id = level g.id) (hkf : k ∈ f.interval) (hkg : k ∈ g.interval) : f = g := by
  induction hn : level .root - level f.id generalizing f g with
  | zero =>
    have hroot : ∀ f ∈ R, level .root - level f.id = 0 → f.id = .root := by
      intro f hf hzero
      by_contra hid
      have hlt := h.level_lt f hf hid
      omega
    have hf' := hroot f hf hn
    have hg' := hroot g hg (hlevel ▸ hn)
    refine h.eq_of_kids hf hg (h.root.unique ?_ ?_ hkf hkg)
    · exact hf' ▸ mem_kids hf
    · exact hg' ▸ mem_kids hg
  | succ n ih =>
    have hnot : ∀ f : Rt κ, level .root - level f.id = n + 1 → f.id ≠ .root := by
      intro f hsucc hid
      rw [hid] at hsucc
      omega
    obtain ⟨f', hf', hinner, hptr, hkf'⟩ := h.exists_parent hf (hnot f hn) hkf
    obtain ⟨g', hg', hinner', hptr', hkg'⟩ := h.exists_parent hg (hnot g (hlevel ▸ hn)) hkg
    have hlf := h.level_inner f' hf' hinner
    have hlg := h.level_inner g' hg' hinner'
    rw [hptr] at hlf
    rw [hptr'] at hlg
    have he : f' = g' := ih hf' hg' (by omega) hkf' hkg' (by omega)
    have htiles := h.inner f' hf' hinner
    refine h.eq_of_kids hf hg (htiles.unique ?_ ?_ hkf hkg)
    · exact hptr ▸ mem_kids hf
    · rw [he, hptr']
      exact mem_kids hg

theorem leaf_unique (hf : f ∈ R) (hg : g ∈ R) (hleaf : f.leaf = true)
    (hleaf' : g.leaf = true) (hkf : k ∈ f.interval) (hkg : k ∈ g.interval) : f = g :=
  h.unique_of_level hf hg ((h.level_leaf f hf hleaf).trans (h.level_leaf g hg hleaf').symm) hkf hkg

end

end Shape

/-! ### A node is split -/

/-- The facts of the node `id` whose intervals begin below `mid` get the identifier `m`. -/
def Rt.retarget (id m : Ptr) (mid : κ) (g : Rt κ) : Rt κ :=
  { g with id := if g.id = id ∧ g.node.lo < mid then m else g.id }

/-- The interval of `f` is divided at `mid`, and so are the facts of the node it leads to. -/
structure Divided (R : Set (Rt κ)) (f : Rt κ) (mid : κ) (m : Ptr) (R' : Set (Rt κ)) : Prop where
  fact : f ∈ R
  inside : mid ∈ Ioo f.node.lo f.node.hi
  least : f.leaf = false → ∃ q ∈ kids R f.node.ptr, q.lo = mid
  unused : Unused R m
  mem : ∀ g, g ∈ R' ↔ (∃ g₀ ∈ R, g₀ ≠ f ∧ g₀.retarget f.node.ptr m mid = g) ∨
    g = ⟨f.id, f.leaf, ⟨f.node.lo, mid, m⟩⟩ ∨ g = ⟨f.id, f.leaf, ⟨mid, f.node.hi, f.node.ptr⟩⟩

namespace Divided

theorem unused_ne (hd : Divided R f mid m R') : f.node.ptr ≠ m := hd.unused.2 f hd.fact

/-- A fact other than `f` does not lead where `f` leads. -/
theorem ptr_ne (h : Shape a b R level) (hd : Divided R f mid m R') (hg : g ∈ R) (hne : g ≠ f) :
    g.node.ptr ≠ f.node.ptr :=
  fun he => hne (h.inj g hg f hd.fact he)

theorem kids_other (hd : Divided R f mid m R') (hf : id ≠ f.id)
    (hp : id ≠ f.node.ptr) (hm : id ≠ m) : kids R' id = kids R id := by
  ext p
  constructor
  · rintro ⟨leaf, hp'⟩
    rcases (hd.mem _).mp hp' with ⟨g, hg, -, he⟩ | he | he
    · obtain ⟨gid, gleaf, gnode⟩ := g
      simp only [Rt.retarget, Rt.mk.injEq] at he
      obtain ⟨hid, rfl, rfl⟩ := he
      split at hid
      next => exact absurd hid.symm hm
      next => exact ⟨gleaf, hid ▸ hg⟩
    · exact absurd (congrArg Rt.id he) hf
    · exact absurd (congrArg Rt.id he) hf
  · rintro ⟨leaf, hp'⟩
    refine ⟨leaf, (hd.mem _).mpr (.inl ⟨_, hp', ?_, ?_⟩)⟩
    · intro he
      exact hf (congrArg Rt.id he)
    · rw [Rt.retarget, if_neg fun hn => hp hn.1]

section

variable (h : Shape a b R level)
include h

theorem tiles_divided (hd : Divided R f mid m R') {c d : κ}
    (ht : Tiles Node.lo Node.hi (kids R f.id) c d) : Tiles Node.lo Node.hi (kids R' f.id) c d := by
  have hid := h.id_ne_ptr hd.fact
  refine ht.divide (u := ⟨f.node.lo, mid, m⟩) (v := ⟨mid, f.node.hi, f.node.ptr⟩)
    (mem_kids hd.fact) hd.inside.1 hd.inside.2 ⟨rfl, rfl⟩ ⟨rfl, rfl⟩ fun p => ⟨?_, ?_⟩
  · rintro ⟨leaf, hp⟩
    rcases (hd.mem _).mp hp with ⟨g, hg, hne, he⟩ | he | he
    · obtain ⟨gid, gleaf, gnode⟩ := g
      simp only [Rt.retarget, Rt.mk.injEq] at he
      obtain ⟨hid', rfl, rfl⟩ := he
      split at hid'
      next => exact absurd hid'.symm (h.id_ne_unused hd.unused hd.fact)
      next =>
        refine .inl ⟨⟨gleaf, hid' ▸ hg⟩, fun he => hne (h.eq_of_kids hg hd.fact he)⟩
    · exact .inr (.inl (congrArg Rt.node he))
    · exact .inr (.inr (congrArg Rt.node he))
  · rintro (⟨⟨leaf, hp⟩, hne⟩ | rfl | rfl)
    · refine ⟨leaf, (hd.mem _).mpr (.inl ⟨_, hp, ?_, ?_⟩)⟩
      · intro he
        exact hne (congrArg Rt.node he)
      · rw [Rt.retarget, if_neg fun hn => hid hn.1]
    · exact ⟨f.leaf, (hd.mem _).mpr (.inr (.inl rfl))⟩
    · exact ⟨f.leaf, (hd.mem _).mpr (.inr (.inr rfl))⟩

theorem mem_kids_moved (hd : Divided R f mid m R') (p : Node κ) :
    p ∈ kids R' m ↔ p ∈ kids R f.node.ptr ∧ p.lo < mid := by
  have hfm := h.id_ne_unused hd.unused hd.fact
  constructor
  · rintro ⟨leaf, hp⟩
    rcases (hd.mem _).mp hp with ⟨g, hg, -, he⟩ | he | he
    · obtain ⟨gid, gleaf, gnode⟩ := g
      simp only [Rt.retarget, Rt.mk.injEq] at he
      obtain ⟨hid, rfl, rfl⟩ := he
      split at hid
      next hmoved => exact ⟨⟨gleaf, hmoved.1 ▸ hg⟩, hmoved.2⟩
      next => exact absurd hid (h.id_ne_unused hd.unused hg)
    · exact absurd (congrArg Rt.id he).symm hfm
    · exact absurd (congrArg Rt.id he).symm hfm
  · rintro ⟨⟨leaf, hp⟩, hlt⟩
    refine ⟨leaf, (hd.mem _).mpr (.inl ⟨_, hp, ?_, ?_⟩)⟩
    · intro he
      exact h.id_ne_ptr hd.fact (congrArg Rt.id he).symm
    · rw [Rt.retarget, if_pos ⟨rfl, hlt⟩]

theorem mem_kids_kept (hd : Divided R f mid m R') (p : Node κ) :
    p ∈ kids R' f.node.ptr ↔ p ∈ kids R f.node.ptr ∧ mid ≤ p.lo := by
  have hfp := h.id_ne_ptr hd.fact
  constructor
  · rintro ⟨leaf, hp⟩
    rcases (hd.mem _).mp hp with ⟨g, hg, -, he⟩ | he | he
    · obtain ⟨gid, gleaf, gnode⟩ := g
      simp only [Rt.retarget, Rt.mk.injEq] at he
      obtain ⟨hid, rfl, rfl⟩ := he
      split at hid
      next => exact absurd hid.symm hd.unused_ne
      next hkept => exact ⟨⟨gleaf, hid ▸ hg⟩, not_lt.mp fun hlt => hkept ⟨hid, hlt⟩⟩
    · exact absurd (congrArg Rt.id he).symm hfp
    · exact absurd (congrArg Rt.id he).symm hfp
  · rintro ⟨⟨leaf, hp⟩, hle⟩
    refine ⟨leaf, (hd.mem _).mpr (.inl ⟨_, hp, ?_, ?_⟩)⟩
    · intro he
      exact hfp (congrArg Rt.id he).symm
    · rw [Rt.retarget, if_neg fun hn => absurd hn.2 (not_lt.mpr hle)]

/-- The tree that a fact other than `f` leads to is covered as before. -/
theorem tiles_kept (hd : Divided R f mid m R') {c d : κ}
    (hp : id ≠ f.node.ptr) (hm : id ≠ m) (ht : Tiles Node.lo Node.hi (kids R id) c d) :
    Tiles Node.lo Node.hi (kids R' id) c d := by
  by_cases hid : id = f.id
  · rw [hid] at ht ⊢
    exact hd.tiles_divided h ht
  · rw [hd.kids_other hid hp hm]
    exact ht

end

theorem retarget_mem (hd : Divided R f mid m R') (hg : g ∈ R) (hne : g ≠ f) :
    g.retarget f.node.ptr m mid ∈ R' :=
  (hd.mem _).mpr (.inl ⟨g, hg, hne, rfl⟩)

section

variable (h : Shape a b R level)
include h

theorem shape_inner (hd : Divided R f mid m R') (hg : g ∈ R')
    (hinner : g.leaf = false) :
    Tiles Node.lo Node.hi (kids R' g.node.ptr) g.node.lo g.node.hi := by
  rcases (hd.mem _).mp hg with ⟨g0, hg0, hne, rfl⟩ | rfl | rfl
  · have hptr : g0.node.ptr ≠ f.node.ptr := hd.ptr_ne h hg0 hne
    exact hd.tiles_kept h hptr (hd.unused.2 g0 hg0) (h.inner g0 hg0 hinner)
  · obtain ⟨q, hq, rfl⟩ := hd.least hinner
    have ht := h.inner f hd.fact hinner
    exact ht.below hq (hd.mem_kids_moved h)
  · obtain ⟨q, hq, rfl⟩ := hd.least hinner
    have ht : Tiles Node.lo Node.hi (kids R' f.node.ptr) q.lo f.node.hi :=
      (h.inner f hd.fact hinner).above hq (hd.mem_kids_kept h)
    exact ht

theorem shape_parent (hd : Divided R f mid m R') (hg : g ∈ R')
    (hid : g.id ≠ .root) : ∃ g' ∈ R', g'.leaf = false ∧ g'.node.ptr = g.id := by
  -- the parent in `R` keeps its pointer
  have hold : ∀ g0 ∈ R, g0.id ≠ .root → g0.id ≠ f.node.ptr →
      ∃ g' ∈ R', g'.leaf = false ∧ g'.node.ptr = g0.id := by
    intro g0 hg0 hroot hptr
    obtain ⟨g', hg', hinner, hg''⟩ := h.parent g0 hg0 hroot
    refine ⟨_, hd.retarget_mem hg' ?_, hinner, hg''⟩
    rintro rfl
    exact hptr hg''.symm
  rcases (hd.mem _).mp hg with ⟨g0, hg0, hne, rfl⟩ | rfl | rfl
  · by_cases hptr : g0.id = f.node.ptr
    · have hinner := h.inner_of_id hd.fact hg0 hptr
      by_cases hlt : g0.node.lo < mid
      · refine ⟨_, (hd.mem _).mpr (.inr (.inl rfl)), hinner, ?_⟩
        rw [Rt.retarget, if_pos ⟨hptr, hlt⟩]
      · refine ⟨_, (hd.mem _).mpr (.inr (.inr rfl)), hinner, ?_⟩
        rw [Rt.retarget, if_neg fun hn => hlt hn.2]
        exact hptr.symm
    · rw [Rt.retarget, if_neg fun hn => hptr hn.1] at hid ⊢
      exact hold g0 hg0 hid hptr
  · exact hold f hd.fact hid (h.id_ne_ptr hd.fact)
  · exact hold f hd.fact hid (h.id_ne_ptr hd.fact)

theorem shape_inj (hd : Divided R f mid m R') (hf : g ∈ R')
    {g' : Rt κ} (hg : g' ∈ R') (hptr : g.node.ptr = g'.node.ptr) : g = g' := by
  have hptr' : ∀ g0 ∈ R, g0 ≠ f → g0.node.ptr ≠ m ∧ g0.node.ptr ≠ f.node.ptr :=
    fun g0 hg0 hne => ⟨hd.unused.2 g0 hg0, hd.ptr_ne h hg0 hne⟩
  rcases (hd.mem _).mp hf with ⟨g0, hg0, hne, rfl⟩ | rfl | rfl <;>
    rcases (hd.mem _).mp hg with ⟨g1, hg1, hne', rfl⟩ | rfl | rfl
  · rw [h.inj g0 hg0 g1 hg1 hptr]
  · exact absurd hptr (hptr' g0 hg0 hne).1
  · exact absurd hptr (hptr' g0 hg0 hne).2
  · exact absurd hptr.symm (hptr' g1 hg1 hne').1
  · rfl
  · exact absurd hptr.symm hd.unused_ne
  · exact absurd hptr.symm (hptr' g1 hg1 hne').2
  · exact absurd hptr hd.unused_ne
  · rfl

/-- The height of a retargeted fact. -/
theorem level_retarget (hd : Divided R f mid m R') (hg : g ∈ R) :
    update level m (level f.node.ptr) (g.retarget f.node.ptr m mid).id = level g.id := by
  rw [Rt.retarget]
  split
  next hmoved => rw [update_self, hmoved.1]
  next => rw [update_of_ne (h.id_ne_unused hd.unused hg)]

theorem shape (hd : Divided R f mid m R') :
    Shape a b R' (update level m (level f.node.ptr)) := by
  have hroot : update level m (level f.node.ptr) .root = level .root :=
    update_of_ne hd.unused.1.symm ..
  have hid : update level m (level f.node.ptr) f.id = level f.id :=
    update_of_ne (h.id_ne_unused hd.unused hd.fact) ..
  refine ⟨?_, fun g hg hinner ↦ hd.shape_inner h hg hinner, fun g hg hid ↦ hd.shape_parent h hg hid,
    fun g hg g' hg' => hd.shape_inj h hg hg', fun g hg => ?_, fun g hg hleaf => ?_,
    fun g hg hinner => ?_, fun g hg hne => ?_⟩
  · exact hd.tiles_kept h (h.not_root f hd.fact).symm hd.unused.1.symm h.root
  · rcases (hd.mem _).mp hg with ⟨g0, hg0, -, rfl⟩ | rfl | rfl
    · exact h.not_root g0 hg0
    · exact hd.unused.1
    · exact h.not_root f hd.fact
  · rcases (hd.mem _).mp hg with ⟨g0, hg0, -, rfl⟩ | rfl | rfl
    · rw [hd.level_retarget h hg0]
      exact h.level_leaf g0 hg0 hleaf
    · exact hid.trans (h.level_leaf f hd.fact hleaf)
    · exact hid.trans (h.level_leaf f hd.fact hleaf)
  · rcases (hd.mem _).mp hg with ⟨g0, hg0, -, rfl⟩ | rfl | rfl
    · rw [hd.level_retarget h hg0]
      refine (h.level_inner g0 hg0 hinner).trans ?_
      exact congrArg (· + 1) (update_of_ne (hd.unused.2 g0 hg0) ..).symm
    · show update level m _ f.id = update level m _ m + 1
      rw [hid, update_self]
      exact h.level_inner f hd.fact hinner
    · show update level m _ f.id = update level m _ f.node.ptr + 1
      rw [hid, update_of_ne hd.unused_ne]
      exact h.level_inner f hd.fact hinner
  · rw [hroot]
    rcases (hd.mem _).mp hg with ⟨g0, hg0, -, rfl⟩ | rfl | rfl
    · rw [hd.level_retarget h hg0]
      refine h.level_lt g0 hg0 fun hroot' => hne ?_
      rw [Rt.retarget, if_neg fun hn => h.not_root f hd.fact (hn.1.symm.trans hroot')]
      exact hroot'
    · rw [hid]
      exact h.level_lt f hd.fact hne
    · rw [hid]
      exact h.level_lt f hd.fact hne

end

end Divided

/-! ### The root is split -/

/-- The facts of the root get the identifiers `m₁` and `m₂`. -/
def Rt.lower (m₁ m₂ : Ptr) (mid : κ) (g : Rt κ) : Rt κ :=
  { g with id := if g.id = .root then if g.node.lo < mid then m₁ else m₂ else g.id }

/-- The root leads to two nodes that have its facts. -/
structure Grown (a b : κ) (R : Set (Rt κ)) (mid : κ) (m₁ m₂ : Ptr) (R' : Set (Rt κ)) : Prop where
  least : ∃ q ∈ kids R .root, q.lo = mid
  inside : a < mid
  unused : Unused R m₁
  unused' : Unused R m₂
  ne : m₁ ≠ m₂
  mem : ∀ g, g ∈ R' ↔ (∃ g₀ ∈ R, g₀.lower m₁ m₂ mid = g) ∨
    g = ⟨.root, false, ⟨a, mid, m₁⟩⟩ ∨ g = ⟨.root, false, ⟨mid, b, m₂⟩⟩

namespace Grown

theorem lower_mem (hd : Grown a b R mid m₁ m₂ R') (hg : g ∈ R) : g.lower m₁ m₂ mid ∈ R' :=
  (hd.mem _).mpr (.inl ⟨g, hg, rfl⟩)

/-- The identifiers afterwards. -/
theorem lower_id (h : Shape a b R level) (hd : Grown a b R mid m₁ m₂ R') (hg : g ∈ R) :
    (g.lower m₁ m₂ mid).id ≠ .root ∧
      ((g.lower m₁ m₂ mid).id = m₁ ↔ g.id = .root ∧ g.node.lo < mid) ∧
      ((g.lower m₁ m₂ mid).id = m₂ ↔ g.id = .root ∧ mid ≤ g.node.lo) := by
  have h1 := h.id_ne_unused hd.unused hg
  have h2 := h.id_ne_unused hd.unused' hg
  rw [Rt.lower]
  split
  next hroot =>
    split
    next hlt => simp [hd.unused.1, hd.ne, hroot, hlt]
    next hge => simp [hd.unused'.1, hd.ne.symm, hroot, hge, not_lt.mp hge]
  next hroot => simp [hroot, h1, h2]

theorem lower_other (hid : g.id ≠ .root) : g.lower m₁ m₂ mid = g := by
  rw [Rt.lower, if_neg hid]

theorem mem_kids_iff (hd : Grown a b R mid m₁ m₂ R') (hid : id ≠ .root) (p : Node κ) :
    p ∈ kids R' id ↔ ∃ g ∈ R, (g.lower m₁ m₂ mid).id = id ∧ g.node = p := by
  constructor
  · rintro ⟨leaf, hp⟩
    rcases (hd.mem _).mp hp with ⟨g, hg, he⟩ | he | he
    · exact ⟨g, hg, congrArg Rt.id he, congrArg Rt.node he⟩
    · exact absurd (congrArg Rt.id he) hid
    · exact absurd (congrArg Rt.id he) hid
  · rintro ⟨g, hg, rfl, rfl⟩
    exact mem_kids (hd.lower_mem hg)

section

variable (h : Shape a b R level)
include h

section

variable (hd : Grown a b R mid m₁ m₂ R')
include hd

theorem kids_other (hid : id ≠ .root)
    (h1 : id ≠ m₁) (h2 : id ≠ m₂) : kids R' id = kids R id := by
  ext p
  rw [hd.mem_kids_iff hid]
  constructor
  · rintro ⟨g, hg, rfl, rfl⟩
    by_cases hroot : g.id = .root
    · by_cases hlt : g.node.lo < mid
      · exact absurd ((hd.lower_id h hg).2.1.mpr ⟨hroot, hlt⟩) h1
      · exact absurd ((hd.lower_id h hg).2.2.mpr ⟨hroot, not_lt.mp hlt⟩) h2
    · rw [lower_other hroot]
      exact mem_kids hg
  · rintro ⟨leaf, hp⟩
    exact ⟨_, hp, by rw [lower_other hid], rfl⟩

theorem mem_kids_low (p : Node κ) :
    p ∈ kids R' m₁ ↔ p ∈ kids R .root ∧ p.lo < mid := by
  rw [hd.mem_kids_iff hd.unused.1]
  constructor
  · rintro ⟨g, hg, hid, rfl⟩
    obtain ⟨hroot, hlt⟩ := (hd.lower_id h hg).2.1.mp hid
    exact ⟨hroot ▸ mem_kids hg, hlt⟩
  · rintro ⟨⟨leaf, hp⟩, hlt⟩
    exact ⟨_, hp, (hd.lower_id h hp).2.1.mpr ⟨rfl, hlt⟩, rfl⟩

theorem mem_kids_high (p : Node κ) :
    p ∈ kids R' m₂ ↔ p ∈ kids R .root ∧ mid ≤ p.lo := by
  rw [hd.mem_kids_iff hd.unused'.1]
  constructor
  · rintro ⟨g, hg, hid, rfl⟩
    obtain ⟨hroot, hle⟩ := (hd.lower_id h hg).2.2.mp hid
    exact ⟨hroot ▸ mem_kids hg, hle⟩
  · rintro ⟨⟨leaf, hp⟩, hle⟩
    exact ⟨_, hp, (hd.lower_id h hp).2.2.mpr ⟨rfl, hle⟩, rfl⟩

theorem mem_kids_root (p : Node κ) :
    p ∈ kids R' .root ↔ p = ⟨a, mid, m₁⟩ ∨ p = ⟨mid, b, m₂⟩ := by
  constructor
  · rintro ⟨leaf, hp⟩
    rcases (hd.mem _).mp hp with ⟨g, hg, he⟩ | he | he
    · exact absurd (congrArg Rt.id he) (hd.lower_id h hg).1
    · exact .inl (congrArg Rt.node he)
    · exact .inr (congrArg Rt.node he)
  · rintro (rfl | rfl)
    · exact ⟨false, (hd.mem _).mpr (.inr (.inl rfl))⟩
    · exact ⟨false, (hd.mem _).mpr (.inr (.inr rfl))⟩

theorem tiles_root :
    Tiles Node.lo Node.hi (kids R' .root) a b := by
  obtain ⟨q, hq, hmid⟩ := hd.least
  have hb : mid < b := hmid ▸ (h.root.nonempty q hq).trans_le (h.root.within hq).2
  exact .pair Node.lo Node.hi (u := ⟨a, mid, m₁⟩) (v := ⟨mid, b, m₂⟩) hd.inside rfl hb
    (hd.mem_kids_root h)

theorem shape_inner (hg : g ∈ R')
    (hinner : g.leaf = false) :
    Tiles Node.lo Node.hi (kids R' g.node.ptr) g.node.lo g.node.hi := by
  obtain ⟨q, hq, hmid⟩ := hd.least
  rcases (hd.mem _).mp hg with ⟨g0, hg0, rfl⟩ | rfl | rfl
  · have hkids : kids R' g0.node.ptr = kids R g0.node.ptr :=
      hd.kids_other h (h.not_root g0 hg0) (hd.unused.2 g0 hg0) (hd.unused'.2 g0 hg0)
    show Tiles Node.lo Node.hi (kids R' g0.node.ptr) g0.node.lo g0.node.hi
    rw [hkids]
    exact h.inner g0 hg0 hinner
  · show Tiles Node.lo Node.hi (kids R' m₁) a mid
    have hlow := hd.mem_kids_low h
    rw [← hmid] at hlow ⊢
    exact h.root.below hq hlow
  · show Tiles Node.lo Node.hi (kids R' m₂) mid b
    have hhigh := hd.mem_kids_high h
    rw [← hmid] at hhigh ⊢
    exact h.root.above hq hhigh

theorem shape_parent (hg : g ∈ R')
    (hid : g.id ≠ .root) : ∃ g' ∈ R', g'.leaf = false ∧ g'.node.ptr = g.id := by
  rcases (hd.mem _).mp hg with ⟨g0, hg0, rfl⟩ | rfl | rfl
  · by_cases hroot : g0.id = .root
    · by_cases hlt : g0.node.lo < mid
      · exact ⟨_, (hd.mem _).mpr (.inr (.inl rfl)), rfl,
          ((hd.lower_id h hg0).2.1.mpr ⟨hroot, hlt⟩).symm⟩
      · exact ⟨_, (hd.mem _).mpr (.inr (.inr rfl)), rfl,
          ((hd.lower_id h hg0).2.2.mpr ⟨hroot, not_lt.mp hlt⟩).symm⟩
    · rw [lower_other hroot]
      obtain ⟨g', hg', hinner, hptr⟩ := h.parent g0 hg0 hroot
      exact ⟨_, hd.lower_mem hg', hinner, hptr⟩
  · exact absurd rfl hid
  · exact absurd rfl hid

theorem shape_inj (hg : g ∈ R')
    {g' : Rt κ} (hg' : g' ∈ R') (hptr : g.node.ptr = g'.node.ptr) : g = g' := by
  rcases (hd.mem _).mp hg with ⟨g0, hg0, rfl⟩ | rfl | rfl <;>
    rcases (hd.mem _).mp hg' with ⟨g1, hg1, rfl⟩ | rfl | rfl
  · rw [h.inj g0 hg0 g1 hg1 hptr]
  · exact absurd hptr (hd.unused.2 g0 hg0)
  · exact absurd hptr (hd.unused'.2 g0 hg0)
  · exact absurd hptr.symm (hd.unused.2 g1 hg1)
  · rfl
  · exact absurd hptr hd.ne
  · exact absurd hptr.symm (hd.unused'.2 g1 hg1)
  · exact absurd hptr.symm hd.ne
  · rfl

end

end

/-- The heights afterwards: the root is one level above the two new nodes. -/
def height (level : Ptr → Nat) (m₁ m₂ p : Ptr) : Nat :=
  if p = .root then level .root + 1 else if p = m₁ ∨ p = m₂ then level .root else level p

theorem height_lower (h : Shape a b R level) (hd : Grown a b R mid m₁ m₂ R') (hg : g ∈ R) :
    height level m₁ m₂ (g.lower m₁ m₂ mid).id = level g.id := by
  obtain ⟨hroot, h1, h2⟩ := hd.lower_id h hg
  rw [height, if_neg hroot]
  split
  next hnew =>
    have hid : g.id = .root := by
      rcases hnew with hnew | hnew
      · exact (h1.mp hnew).1
      · exact (h2.mp hnew).1
    rw [hid]
  next hold =>
    have hid : g.id ≠ .root := by
      intro hid
      rcases lt_or_ge g.node.lo mid with hlt | hge
      · exact hold (.inl (h1.mpr ⟨hid, hlt⟩))
      · exact hold (.inr (h2.mpr ⟨hid, hge⟩))
    rw [lower_other hid]

theorem shape (h : Shape a b R level) (hd : Grown a b R mid m₁ m₂ R') :
    Shape a b R' (height level m₁ m₂) := by
  have hroot : height level m₁ m₂ .root = level .root + 1 := if_pos rfl
  have hm1 : height level m₁ m₂ m₁ = level .root := by
    rw [height, if_neg hd.unused.1, if_pos (.inl rfl)]
  have hm2 : height level m₁ m₂ m₂ = level .root := by
    rw [height, if_neg hd.unused'.1, if_pos (.inr rfl)]
  refine ⟨hd.tiles_root h, fun g hg hinner => hd.shape_inner h hg hinner,
    fun g hg hid => hd.shape_parent h hg hid, fun g hg g' hg' => hd.shape_inj h hg hg',
    fun g hg => ?_, fun g hg hleaf => ?_, fun g hg hinner => ?_, fun g hg hne => ?_⟩
  · rcases (hd.mem _).mp hg with ⟨g0, hg0, rfl⟩ | rfl | rfl
    · exact h.not_root g0 hg0
    · exact hd.unused.1
    · exact hd.unused'.1
  · rcases (hd.mem _).mp hg with ⟨g0, hg0, rfl⟩ | rfl | rfl
    · rw [hd.height_lower h hg0]
      exact h.level_leaf g0 hg0 hleaf
    · cases hleaf
    · cases hleaf
  · rcases (hd.mem _).mp hg with ⟨g0, hg0, rfl⟩ | rfl | rfl
    · rw [hd.height_lower h hg0]
      have hptr : height level m₁ m₂ g0.node.ptr = level g0.node.ptr := by
        rw [height, if_neg (h.not_root g0 hg0), if_neg]
        rintro (he | he)
        · exact hd.unused.2 g0 hg0 he
        · exact hd.unused'.2 g0 hg0 he
      exact (h.level_inner g0 hg0 hinner).trans (congrArg (· + 1) hptr.symm)
    · show height level m₁ m₂ .root = height level m₁ m₂ m₁ + 1
      rw [hroot, hm1]
    · show height level m₁ m₂ .root = height level m₁ m₂ m₂ + 1
      rw [hroot, hm2]
  · rcases (hd.mem _).mp hg with ⟨g0, hg0, rfl⟩ | rfl | rfl
    · rw [hd.height_lower h hg0, hroot]
      by_cases hid : g0.id = .root
      · rw [hid]
        exact Nat.lt_succ_self _
      · exact (h.level_lt g0 hg0 hid).trans (Nat.lt_succ_self _)
    · exact absurd rfl hne
    · exact absurd rfl hne

end Grown

/-! ### Leaves -/

/-- The leaves of a tree, with their intervals. -/
def leafNodes (R : Set (Rt κ)) : Set (Node κ) := {p | ∃ id, ⟨id, true, p⟩ ∈ R}

omit [LinearOrder κ] in
theorem mem_leafNodes : p ∈ leafNodes R ↔ ∃ g ∈ R, g.leaf = true ∧ g.node = p := by
  constructor
  · rintro ⟨id, hp⟩
    exact ⟨_, hp, rfl, rfl⟩
  · rintro ⟨⟨id, leaf, node⟩, hg, rfl, rfl⟩
    exact ⟨id, hg⟩

theorem Divided.leafNodes_inner (hd : Divided R f mid m R') (hinner : f.leaf = false) :
    leafNodes R' = leafNodes R := by
  ext p
  rw [mem_leafNodes, mem_leafNodes]
  constructor
  · rintro ⟨g, hg, hleaf, rfl⟩
    rcases (hd.mem _).mp hg with ⟨g0, hg0, -, rfl⟩ | rfl | rfl
    · exact ⟨g0, hg0, hleaf, rfl⟩
    · exact absurd (hleaf.symm.trans hinner) Bool.true_eq_false_eq_False
    · exact absurd (hleaf.symm.trans hinner) Bool.true_eq_false_eq_False
  · rintro ⟨g, hg, hleaf, rfl⟩
    refine ⟨_, hd.retarget_mem hg ?_, hleaf, rfl⟩
    rintro rfl
    rw [hleaf] at hinner
    cases hinner

theorem Divided.mem_leafNodes_leaf (h : Shape a b R level) (hd : Divided R f mid m R')
    (hleaf : f.leaf = true) (p : Node κ) : p ∈ leafNodes R' ↔ p ∈ leafNodes R ∧ p ≠ f.node ∨
      p = ⟨f.node.lo, mid, m⟩ ∨ p = ⟨mid, f.node.hi, f.node.ptr⟩ := by
  rw [mem_leafNodes, mem_leafNodes]
  constructor
  · rintro ⟨g, hg, hleaf', rfl⟩
    rcases (hd.mem _).mp hg with ⟨g0, hg0, hne, rfl⟩ | rfl | rfl
    · exact .inl ⟨⟨g0, hg0, hleaf', rfl⟩, fun he => hne (h.eq_of_kids hg0 hd.fact he)⟩
    · exact .inr (.inl rfl)
    · exact .inr (.inr rfl)
  · rintro (⟨⟨g, hg, hleaf', rfl⟩, hne⟩ | rfl | rfl)
    · refine ⟨_, hd.retarget_mem hg ?_, hleaf', rfl⟩
      rintro rfl
      exact hne rfl
    · exact ⟨_, (hd.mem _).mpr (.inr (.inl rfl)), hleaf, rfl⟩
    · exact ⟨_, (hd.mem _).mpr (.inr (.inr rfl)), hleaf, rfl⟩

theorem Grown.leafNodes_eq (hd : Grown a b R mid m₁ m₂ R') : leafNodes R' = leafNodes R := by
  ext p
  rw [mem_leafNodes, mem_leafNodes]
  constructor
  · rintro ⟨g, hg, hleaf, rfl⟩
    rcases (hd.mem _).mp hg with ⟨g0, hg0, rfl⟩ | rfl | rfl
    · exact ⟨g0, hg0, hleaf, rfl⟩
    · cases hleaf
    · cases hleaf
  · rintro ⟨g, hg, hleaf, rfl⟩
    exact ⟨_, hd.lower_mem hg, hleaf, rfl⟩

end XSBEngine.Ranges
