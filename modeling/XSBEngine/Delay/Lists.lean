import XSBEngine.Delay.Uses

/-!
# Delay lists while elements come and go

The loops over the elements of a list and over the lists of an answer, and the invariant of all
tables that `do_delay_stuff` and the simplifications of `XSB/emu/slgdelay.c:1296–1605` keep.
-/

namespace XSBEngine.Delay

open Function Library List

variable {t : PndeTable} {e : DeTable} {own : Owner → List Nat} {recorded : Nat → Nat → Prop}
  {E D : Nat → List Nat} {pool : Pool} {dl de p leaf : Nat} {o : Owner} {l l1 l2 : List Nat}

section Loops

/-- `record_de_usage` records the elements of a list. -/
theorem recordDeUsage_spec (dl : Nat) {fuel : Nat} (h : Uses t e own recorded)
    (hl : Linked e.pool.next l.head? l) (hfuel : l.length ≤ fuel)
    (hnew : ∀ de ∈ l, ∀ dl', ¬ recorded dl' de) :
    ∃ t' pnde own', recordDeUsage dl fuel t e l.head? = some (t', { e with pnde := pnde }) ∧
      Uses t' { e with pnde := pnde } own'
        (fun dl' de => recorded dl' de ∨ dl' = dl ∧ de ∈ l) := by
  induction l generalizing fuel t e own recorded with
  | nil =>
    refine ⟨t, e.pnde, own, ?_, h.congr fun dl' de => ?_⟩
    · cases fuel <;> rfl
    · simp
  | cons de l ih =>
    obtain ⟨fuel, rfl⟩ : ∃ n, fuel = n + 1 := Nat.exists_eq_succ_of_ne_zero (by
      rw [length_cons] at hfuel
      omega)
    have hnext : e.pool.next de = l.head? := linked_head hl.2
    have hrecord := h.record (hnew de mem_cons_self) dl
    obtain ⟨t', pnde, own', heq, huses⟩ := ih hrecord (hnext ▸ hl.2) (Nat.le_of_succ_le_succ hfuel)
      (by
        rintro x hx dl' (hrec | ⟨-, rfl⟩)
        · exact hnew x (mem_cons_of_mem de hx) dl' hrec
        · exact (nodup_cons.mp hl.nodup).1 hx)
    refine ⟨t', pnde, own', ?_, huses.congr fun dl' x => ?_⟩
    · rw [List.head?_cons, recordDeUsage, hnext]
      exact heq
    · rw [mem_cons, or_assoc, ← and_or_left]

/-- The elements of a list are released with their entries. -/
theorem releaseDes_spec (check : Bool) (dl fuel : Nat)
    (h : Uses t e own fun dl de => de ∈ E dl) (hpool : pool.Holds E)
    (hfuel : (E dl).length ≤ fuel) :
    ∃ t' pool' own', releaseDes check e fuel t pool (E dl).head? = some (t', pool') ∧
      Uses t' e own' (fun dl' de => de ∈ update E dl [] dl') ∧
      pool'.Holds (update E dl []) ∧ t'.dl = t.dl ∧ t'.de = t.de := by
  induction hE : E dl generalizing fuel t pool own E with
  | nil =>
    have hupdate : update E dl [] = E := by rw [← hE, update_eq_self]
    refine ⟨t, pool, own, ?_, ?_, ?_, rfl, rfl⟩
    · cases fuel <;> rfl
    · rwa [hupdate]
    · rwa [hupdate]
  | cons de l ih =>
    obtain ⟨fuel, rfl⟩ : ∃ n, fuel = n + 1 := Nat.exists_eq_succ_of_ne_zero (by
      rw [hE, length_cons] at hfuel
      omega)
    have hde : de ∈ E dl := hE ▸ mem_cons_self
    have hlinked := hpool.linked dl
    rw [hE] at hlinked
    have hnext : pool.next de = l.head? := linked_head hlinked.2
    obtain ⟨own', hremove⟩ := h.removePnde hde
    have hrest := hremove.congr (hpool.mem_erase (show E dl = [] ++ de :: l from hE))
    obtain ⟨t', pool', own'', heq, huses, hholds, hdl', hde'⟩ :=
      ih fuel hrest (hpool.releaseHead hE)
      (by
        rw [update_self]
        rw [hE] at hfuel
        exact Nat.le_of_succ_le_succ hfuel)
      (update_self ..)
    rw [update_idem] at huses hholds
    obtain ⟨hdl, hpde, -⟩ := removePnde_frame t (e.owner de) (e.pnde de)
    refine ⟨t', pool', own'', ?_, huses, hholds, hdl'.trans hdl, hde'.trans hpde⟩
    rw [List.head?_cons, releaseDes, h.removeFor hde, hnext]
    exact heq

/-- The lists of an answer are released with their elements. -/
theorem releaseDls_spec (leaf fuel : Nat) {des dls : Pool} {deList : Nat → Option Nat}
    (h : Uses t e own fun dl de => de ∈ E dl) (hdes : des.Holds E) (hdls : dls.Holds D)
    (hdeList : ∀ dl ∈ D leaf, deList dl = (E dl).head?) (hfuel : (D leaf).length ≤ fuel) :
    ∃ t' des' dls' own' E', releaseDls e deList fuel t des dls (D leaf).head? =
        some (t', des', dls') ∧
      Uses t' e own' (fun dl de => de ∈ E' dl) ∧ des'.Holds E' ∧
      dls'.Holds (update D leaf []) ∧
      (∀ dl ∈ D leaf, E' dl = []) ∧ ∀ dl, dl ∉ D leaf → E' dl = E dl := by
  induction hD : D leaf generalizing fuel t des dls own E D with
  | nil =>
    refine ⟨t, des, dls, own, E, ?_, h, hdes, ?_, ?_, fun _ _ => rfl⟩
    · cases fuel <;> rfl
    · rwa [← hD, update_eq_self]
    · exact fun dl hdl => absurd hdl not_mem_nil
  | cons dl l ih =>
    obtain ⟨fuel, rfl⟩ : ∃ n, fuel = n + 1 := Nat.exists_eq_succ_of_ne_zero (by
      rw [hD, length_cons] at hfuel
      omega)
    have hlinked := hdls.linked leaf
    rw [hD] at hlinked hdeList hfuel
    have hnext : dls.next dl = l.head? := linked_head hlinked.2
    have hdl : dl ∉ l := (nodup_cons.mp hlinked.nodup).1
    obtain ⟨t1, des1, own1, heq1, huses1, hdes1, -, -⟩ :=
      releaseDes_spec true dl _ h hdes (hdes.length_le dl)
    have hself : update D leaf l leaf = l := update_self ..
    obtain ⟨t', des', dls', own', E', heq, huses, hdes', hdls', hout, hin⟩ :=
      ih fuel huses1 hdes1 (hdls.releaseHead hD)
        (by
          intro x hx
          rw [hself] at hx
          rw [update_of_ne (ne_of_mem_of_not_mem hx hdl)]
          exact hdeList x (mem_cons_of_mem dl hx))
        (by
          rw [hself]
          exact Nat.le_of_succ_le_succ hfuel)
        hself
    rw [update_idem] at hdls'
    refine ⟨t', des', dls', own', E', ?_, huses, hdes', hdls', ?_, ?_⟩
    · rw [List.head?_cons, releaseDls, hdeList dl mem_cons_self, heq1, hnext]
      exact heq
    · refine forall_mem_cons.mpr ⟨?_, hout⟩
      rw [hin dl hdl, update_self]
    · intro x hx
      obtain ⟨hne, hx⟩ := not_or.mp (mt mem_cons.mpr hx)
      rw [hin x hx, update_of_ne hne]

/-- The elements of the delay register are put in front of those of a list that is being built. -/
theorem internDes_spec (s : DelayTables) (failed : Nat → Bool) (delayreg : List (Nat × Option Nat))
    (dl : Nat) (hpool : e.pool.Holds E) :
    ∃ l e', s.internDes failed delayreg (E dl).head? e = ((l ++ E dl).head?, e') ∧
      e'.pool.Holds (update E dl (l ++ E dl)) ∧ (∀ de ∈ l, ∀ dl', de ∉ E dl') ∧
      (∀ dl', ∀ de ∈ E dl', e'.pnde de = e.pnde de ∧ e'.ansSubst de = e.ansSubst de ∧
        e'.owner de = e.owner de) ∧
      (∀ de ∈ l, ∀ leaf, e'.ansSubst de = some leaf → (s.child leaf).isConditional) ∧
      (∀ dl', ∀ de ∈ E dl', e'.elem de = e.elem de) ∧
      l.map e'.elem = s.remaining failed delayreg := by
  induction delayreg generalizing e E with
  | nil =>
    refine ⟨[], e, rfl, ?_, ?_, fun _ _ _ => ⟨rfl, rfl, rfl⟩, ?_, fun _ _ _ => rfl, rfl⟩
    · rwa [nil_append, update_eq_self]
    · exact fun de hde => absurd hde not_mem_nil
    · exact fun de hde => absurd hde not_mem_nil
  | cons elem delayreg ih =>
    rw [DelayTables.internDes]
    split
    next hsimplifiable =>
      have hremaining : s.remaining failed (elem :: delayreg) = s.remaining failed delayreg := by
        simp [DelayTables.remaining, hsimplifiable]
      rw [hremaining]
      exact ih hpool
    next hsimplifiable =>
      have hremaining : s.remaining failed (elem :: delayreg) =
          s.remaining failed delayreg ++ [elem] := by
        simp [DelayTables.remaining, hsimplifiable]
      set new := e.pool.newEntry.1 with hnew
      obtain ⟨hholds, hfresh⟩ := hpool.newEntry dl
      set e1 := DelayTables.internDelayElement e (E dl).head? elem with he1
      have hself : update E dl (new :: E dl) dl = new :: E dl := update_self ..
      obtain ⟨l, e', heq, hpool', hout, hkeep, hcond, hsame, hmap⟩ := ih (e := e1) hholds
      rw [hself] at heq hpool'
      rw [update_idem] at hpool'
      have hsub : ∀ dl' x, x ∈ E dl' → x ∈ update E dl (new :: E dl) dl' := by
        intro dl' x hx
        rcases eq_or_ne dl' dl with rfl | hne
        · rw [hself]
          exact mem_cons_of_mem new hx
        · rwa [update_of_ne hne]
      have happend : l ++ new :: E dl = (l ++ [new]) ++ E dl := by simp
      rw [happend] at heq hpool'
      refine ⟨l ++ [new], e', heq, hpool', ?_, ?_, ?_, ?_, ?_⟩
      · intro x hx dl' hxE
        rcases mem_append.mp hx with hx | hx
        · exact hout x hx dl' (hsub dl' x hxE)
        · rw [mem_singleton.mp hx] at hxE
          exact hfresh dl' hxE
      · intro dl' x hx
        have hne : x ≠ new := by
          rintro rfl
          exact hfresh dl' hx
        have hans : e1.ansSubst x = e.ansSubst x := update_of_ne hne ..
        have hsubgoal : e1.subgoal x = e.subgoal x := update_of_ne hne ..
        have howner : e1.owner x = e.owner x := by
          rw [DeTable.owner, DeTable.owner, hans, hsubgoal]
        obtain ⟨h1, h2, h3⟩ := hkeep dl' x (hsub dl' x hx)
        exact ⟨h1, h2.trans hans, h3.trans howner⟩
      · intro x hx leaf hleaf
        rcases mem_append.mp hx with hx | hx
        · exact hcond x hx leaf hleaf
        · obtain rfl := mem_singleton.mp hx
          have hmem : new ∈ update E dl (new :: E dl) dl := by
            rw [hself]
            exact mem_cons_self
          have hans : e1.ansSubst new = elem.2 := update_self ..
          rw [(hkeep dl new hmem).2.1, hans] at hleaf
          obtain ⟨subgoal, ans⟩ := elem
          obtain rfl : ans = some leaf := hleaf
          simpa [DelayTables.wasSimplifiable] using hsimplifiable
      · intro dl' x hx
        have hne : x ≠ new := by
          rintro rfl
          exact hfresh dl' hx
        have helem : e1.elem x = e.elem x :=
          Prod.ext (update_of_ne hne ..) (update_of_ne hne ..)
        exact (hsame dl' x (hsub dl' x hx)).trans helem
      · have hmem : new ∈ update E dl (new :: E dl) dl := by
          rw [hself]
          exact mem_cons_self
        have helem : e1.elem new = elem :=
          Prod.ext (update_self ..) (update_self ..)
        rw [hremaining, map_append, hmap, map_singleton, hsame dl new hmem, helem]

end Loops

/-! ### The invariant -/

/-- The lists of entries, the elements of each delay list and the delay lists of each answer. -/
structure DelayTables.OK (s : DelayTables) (own : Owner → List Nat) (E D : Nat → List Nat) :
    Prop where
  uses : Uses s.pndes s.des own fun dl de => de ∈ E dl
  des : s.des.pool.Holds E
  dls : s.dls.pool.Holds D
  dlList : ∀ leaf, s.child leaf = .asi → s.dlList leaf = (D leaf).head?
  conditional : ∀ leaf dl, dl ∈ D leaf → s.child leaf = .asi
  deList : ∀ leaf dl, dl ∈ D leaf → s.dls.deList dl = (E dl).head?
  asl : ∀ leaf dl, dl ∈ D leaf → s.dls.asl dl = some leaf
  inList : ∀ dl de, de ∈ E dl → ∃ leaf, dl ∈ D leaf
  refers : ∀ dl de leaf, de ∈ E dl → s.des.ansSubst de = some leaf → s.child leaf ≠ .null

/-- The delay lists of an answer, with the elements as they were in the delay register. -/
def DelayTables.contents (s : DelayTables) (E D : Nat → List Nat) (leaf : Nat) :
    List (List (Nat × Option Nat)) :=
  (D leaf).map fun dl => (E dl).map s.des.elem

namespace DelayTables.OK

variable {s : DelayTables}

section

variable (h : s.OK own E D)
include h

/-- The delay information of an answer without delay lists is marked, or the answer is deleted or
has no entries any more. -/
theorem setChild {c : Child} (hD : D leaf = []) (hc : c ≠ .asi)
    (hnull : c = .null → own (.answer leaf) = []) : (s.setChild leaf c).OK own E D where
  uses := h.uses
  des := h.des
  dls := h.dls
  dlList leaf' hleaf := by
    rcases eq_or_ne leaf' leaf with rfl | hne
    · exact absurd ((update_self ..).symm.trans hleaf) hc
    · exact h.dlList leaf' ((update_of_ne hne ..).symm.trans hleaf)
  conditional leaf' dl hdl := by
    have hne : leaf' ≠ leaf := by
      rintro rfl
      exact not_mem_nil (hD ▸ hdl)
    exact (update_of_ne hne ..).trans (h.conditional leaf' dl hdl)
  deList := h.deList
  asl := h.asl
  inList := h.inList
  refers dl de leaf' hde hans := by
    rcases eq_or_ne leaf' leaf with rfl | hne
    · intro hchild
      have hcnull : c = .null := (update_self ..).symm.trans hchild
      have hmem := (h.uses.entry dl de hde).1
      have howner : s.des.owner de = .answer leaf' := by
        rw [DeTable.owner, show s.des.ansSubst de = some leaf' from hans]
      rw [howner, hnull hcnull] at hmem
      exact not_mem_nil hmem
    · intro hchild
      exact h.refers dl de leaf' hde hans ((update_of_ne hne ..).symm.trans hchild)

/-- The entry of an element and then the element are removed. -/
theorem simplifyDe (hp : p ∈ own o) :
    ∃ b s' own' E', s.simplifyDe o p = some (b, s') ∧ s'.OK own' E' D ∧ s'.child = s.child ∧
      (∀ dl de, de ∈ E' dl ↔ de ∈ E dl ∧ de ≠ s.pndes.de p) ∧
      (b = false → E' (s.pndes.dl p) = []) := by
  obtain ⟨hde, hpde, howner⟩ := h.uses.element o p hp
  obtain ⟨leaf, hdl⟩ := h.inList _ _ hde
  obtain ⟨own', huses⟩ := h.uses.removePnde hde
  rw [hpde, howner] at huses
  obtain ⟨l1, l2, hE⟩ := append_of_mem hde
  obtain ⟨pool, hsearch, hpool⟩ := h.des.searchRemove hE
  have hmem := h.des.mem_erase hE
  set dl := s.pndes.dl p
  set de := s.pndes.de p
  refine ⟨(l1 ++ l2).head?.isSome, { s with
      pndes := s.pndes.removePnde o p
      des := { s.des with pool := pool }
      dls := { s.dls with deList := update s.dls.deList dl (l1 ++ l2).head? } },
    own', _, ?_, ⟨(huses.congr hmem).setPool pool, hpool, h.dls, h.dlList, h.conditional, ?_, h.asl,
    ?_, ?_⟩, rfl, hmem, fun hb => ?_⟩
  · show removeDeFromDl _ de dl = _
    simp only [removeDeFromDl, h.deList leaf dl hdl, hsearch, Option.bind_eq_bind,
      Option.bind_some]
  · intro leaf' dl' hdl'
    show update s.dls.deList dl (l1 ++ l2).head? dl' = _
    rcases eq_or_ne dl' dl with rfl | hne
    · rw [update_self, update_self]
    · rw [update_of_ne hne, update_of_ne hne]
      exact h.deList leaf' dl' hdl'
  · exact fun dl' de' hde' => h.inList dl' de' ((hmem dl' de').mp hde').1
  · exact fun dl' de' leaf' hde' => h.refers dl' de' leaf' ((hmem dl' de').mp hde').1
  · rw [update_self]
    exact List.head?_eq_none_iff.mp (Option.not_isSome_iff_eq_none.mp (Bool.eq_false_iff.mp hb))

/-- The elements of a delay list and then the list are removed. -/
theorem simplifyDl (hdl : dl ∈ D leaf) :
    ∃ b s' own' E' D', s.simplifyDl dl = some (b, s') ∧ s'.OK own' E' D' ∧ s'.child = s.child ∧
      (∀ dl' de, de ∈ E' dl' ↔ de ∈ E dl' ∧ dl' ≠ dl) ∧ (b = false → D' leaf = []) ∧
      s'.pndes.dl = s.pndes.dl ∧ s'.pndes.de = s.pndes.de := by
  have hchild := h.conditional leaf dl hdl
  obtain ⟨t, des, own', hrelease, huses, hdes, hpdl, hpde⟩ :=
    releaseDes_spec false dl _ h.uses h.des (h.des.length_le dl)
  obtain ⟨l1, l2, hD⟩ := append_of_mem hdl
  obtain ⟨dls, hsearch, hdls⟩ := h.dls.searchRemove hD
  have hmem := h.dls.mem_erase hD
  have hnonempty : (D leaf).head? ≠ none := by
    rw [hD]
    cases l1 <;> exact Option.some_ne_none _
  refine ⟨(l1 ++ l2).head?.isSome, { s with
      pndes := t
      des := { s.des with pool := des }
      dls := { s.dls with pool := dls }
      dlList := update s.dlList leaf (l1 ++ l2).head? },
    own', _, _, ?_, ⟨huses.setPool des, hdes, hdls, ?_, ?_, ?_, ?_, ?_, ?_⟩, rfl, ?_, ?_, hpdl,
    hpde⟩
  · simp only [DelayTables.simplifyDl, h.asl leaf dl hdl, h.deList leaf dl hdl, hrelease,
      removeDlFromDlList, h.dlList leaf hchild, if_neg hnonempty, hsearch, Option.bind_eq_bind,
      Option.bind_some]
  · intro leaf' hleaf'
    show update s.dlList leaf (l1 ++ l2).head? leaf' = _
    rcases eq_or_ne leaf' leaf with rfl | hne
    · rw [update_self, update_self]
    · rw [update_of_ne hne, update_of_ne hne]
      exact h.dlList leaf' hleaf'
  · exact fun leaf' dl' hdl' => h.conditional leaf' dl' ((hmem leaf' dl').mp hdl').1
  · intro leaf' dl' hdl'
    obtain ⟨hdl', hne⟩ := (hmem leaf' dl').mp hdl'
    rw [update_of_ne hne]
    exact h.deList leaf' dl' hdl'
  · exact fun leaf' dl' hdl' => h.asl leaf' dl' ((hmem leaf' dl').mp hdl').1
  · intro dl' de hde
    obtain ⟨hde, hne⟩ : de ∈ E dl' ∧ dl' ≠ dl := by
      rcases eq_or_ne dl' dl with rfl | hne
      · rw [update_self] at hde
        exact absurd hde not_mem_nil
      · rw [update_of_ne hne] at hde
        exact ⟨hde, hne⟩
    obtain ⟨leaf', hdl'⟩ := h.inList dl' de hde
    exact ⟨leaf', (hmem leaf' dl').mpr ⟨hdl', hne⟩⟩
  · intro dl' de leaf' hde
    rcases eq_or_ne dl' dl with rfl | hne
    · rw [update_self] at hde
      exact absurd hde not_mem_nil
    · rw [update_of_ne hne] at hde
      exact h.refers dl' de leaf' hde
  · intro dl' de
    rcases eq_or_ne dl' dl with rfl | hne
    · simp
    · simp [hne]
  · intro hb
    rw [update_self]
    exact List.head?_eq_none_iff.mp (Option.not_isSome_iff_eq_none.mp (Bool.eq_false_iff.mp hb))

/-- A delay list without elements is removed. -/
theorem removeDl (hdl : dl ∈ D leaf) (hE : E dl = []) :
    ∃ b s' D', s.removeDlFromDlList dl leaf = some (b, s') ∧ s'.OK own E D' ∧
      s'.child = s.child := by
  have hchild := h.conditional leaf dl hdl
  obtain ⟨l1, l2, hD⟩ := append_of_mem hdl
  obtain ⟨dls, hsearch, hdls⟩ := h.dls.searchRemove hD
  have hmem := h.dls.mem_erase hD
  have hnonempty : (D leaf).head? ≠ none := by
    rw [hD]
    cases l1 <;> exact Option.some_ne_none _
  refine ⟨(l1 ++ l2).head?.isSome, { s with
      dls := { s.dls with pool := dls }
      dlList := update s.dlList leaf (l1 ++ l2).head? },
    _, ?_, ⟨h.uses, h.des, hdls, ?_, ?_, ?_, ?_, ?_, h.refers⟩, rfl⟩
  · simp only [removeDlFromDlList, h.dlList leaf hchild, if_neg hnonempty, hsearch,
      Option.bind_eq_bind, Option.bind_some]
  · intro leaf' hleaf'
    show update s.dlList leaf (l1 ++ l2).head? leaf' = _
    rcases eq_or_ne leaf' leaf with rfl | hne
    · rw [update_self, update_self]
    · rw [update_of_ne hne, update_of_ne hne]
      exact h.dlList leaf' hleaf'
  · exact fun leaf' dl' hdl' => h.conditional leaf' dl' ((hmem leaf' dl').mp hdl').1
  · exact fun leaf' dl' hdl' => h.deList leaf' dl' ((hmem leaf' dl').mp hdl').1
  · exact fun leaf' dl' hdl' => h.asl leaf' dl' ((hmem leaf' dl').mp hdl').1
  · intro dl' de hde
    have hne : dl' ≠ dl := by
      rintro rfl
      exact not_mem_nil (hE ▸ hde)
    obtain ⟨leaf', hdl'⟩ := h.inList dl' de hde
    exact ⟨leaf', (hmem leaf' dl').mpr ⟨hdl', hne⟩⟩

/-- All delay lists of an answer are released, which is marked or deleted then. -/
theorem releaseAllDls (hchild : s.child leaf = .asi) {c : Child}
    (hc : c ≠ .asi) (hnull : c ≠ .null) :
    ∃ s' own' E' D', s.releaseAllDls leaf = some s' ∧ (s'.setChild leaf c).OK own' E' D' ∧
      s'.child = s.child ∧ ∀ dl de, de ∈ E' dl → de ∈ E dl := by
  obtain ⟨t, des, dls, own', E', hrelease, huses, hdes, hdls, hout, hin⟩ :=
    releaseDls_spec leaf _ h.uses h.des h.dls (h.deList leaf) (h.dls.length_le leaf)
  have hsub : ∀ dl de, de ∈ E' dl → de ∈ E dl ∧ dl ∉ D leaf := by
    intro dl de hde
    by_cases hdl : dl ∈ D leaf
    · rw [hout dl hdl] at hde
      exact absurd hde not_mem_nil
    · rw [hin dl hdl] at hde
      exact ⟨hde, hdl⟩
  have hmem : ∀ leaf' dl, dl ∈ update D leaf [] leaf' → dl ∈ D leaf' ∧ leaf' ≠ leaf := by
    intro leaf' dl hdl
    rcases eq_or_ne leaf' leaf with rfl | hne
    · rw [update_self] at hdl
      exact absurd hdl not_mem_nil
    · rw [update_of_ne hne] at hdl
      exact ⟨hdl, hne⟩
  refine ⟨{ s with
      pndes := t
      des := { s.des with pool := des }
      dls := { s.dls with pool := dls } },
    own', E', _, ?_, ⟨huses.setPool des, hdes, hdls, ?_, ?_, ?_, ?_, ?_, ?_⟩, rfl,
    fun dl de hde => (hsub dl de hde).1⟩
  · simp only [DelayTables.releaseAllDls, h.dlList leaf hchild, hrelease, Option.bind_eq_bind,
      Option.bind_some]
  · intro leaf' hleaf'
    rcases eq_or_ne leaf' leaf with rfl | hne
    · exact absurd ((update_self ..).symm.trans hleaf') hc
    · rw [update_of_ne hne]
      exact h.dlList leaf' ((update_of_ne hne ..).symm.trans hleaf')
  · intro leaf' dl hdl
    obtain ⟨hdl, hne⟩ := hmem leaf' dl hdl
    exact (update_of_ne hne ..).trans (h.conditional leaf' dl hdl)
  · intro leaf' dl hdl
    obtain ⟨hdl, hne⟩ := hmem leaf' dl hdl
    rw [hin dl fun hdl' => hne (h.dls.disjoint hdl hdl')]
    exact h.deList leaf' dl hdl
  · exact fun leaf' dl hdl => h.asl leaf' dl (hmem leaf' dl hdl).1
  · intro dl de hde
    obtain ⟨hde, hdl⟩ := hsub dl de hde
    obtain ⟨leaf', hleaf'⟩ := h.inList dl de hde
    have hne : leaf' ≠ leaf := fun heq => hdl (heq ▸ hleaf')
    refine ⟨leaf', ?_⟩
    rwa [update_of_ne hne]
  · intro dl de leaf' hde hans hchild'
    rcases eq_or_ne leaf' leaf with rfl | hne
    · exact hnull ((update_self ..).symm.trans hchild')
    · exact h.refers dl de leaf' (hsub dl de hde).1 hans
        ((update_of_ne hne ..).symm.trans hchild')

/-- An answer without delay information gets an empty one. -/
theorem createAsiInfo (hchild : s.child leaf = .null) :
    (s.createAsiInfo leaf).OK own E D := by
  have hD : D leaf = [] := by
    rw [eq_nil_iff_forall_not_mem]
    intro dl hdl
    have hasi := h.conditional leaf dl hdl
    rw [hchild] at hasi
    exact Child.noConfusion hasi
  have hown : own (.answer leaf) = [] := by
    rw [eq_nil_iff_forall_not_mem]
    intro p hp
    obtain ⟨hde, -, howner⟩ := h.uses.element _ p hp
    refine h.refers _ _ leaf hde ?_ hchild
    unfold DeTable.owner at howner
    split at howner
    next => exact Owner.noConfusion howner
    next leaf' hans => rw [hans, Owner.answer.inj howner]
  refine ⟨⟨h.uses.holds, fun o => ?_, h.uses.back, h.uses.entry, h.uses.element⟩, h.des, h.dls, ?_,
    ?_, h.deList, h.asl, h.inList, ?_⟩
  · show update s.pndes.head (.answer leaf) none o = _
    rcases eq_or_ne o (.answer leaf) with rfl | hne
    · rw [update_self, hown]
      rfl
    · rw [update_of_ne hne]
      exact h.uses.head o
  · intro leaf' hleaf'
    show update s.dlList leaf none leaf' = _
    rcases eq_or_ne leaf' leaf with rfl | hne
    · rw [update_self, hD]
      rfl
    · rw [update_of_ne hne]
      exact h.dlList leaf' ((update_of_ne hne ..).symm.trans hleaf')
  · intro leaf' dl hdl
    have hne : leaf' ≠ leaf := by
      rintro rfl
      exact not_mem_nil (hD ▸ hdl)
    exact (update_of_ne hne ..).trans (h.conditional leaf' dl hdl)
  · intro dl de leaf' hde hans
    show update s.child leaf .asi leaf' ≠ .null
    rcases eq_or_ne leaf' leaf with rfl | hne
    · rw [update_self]
      exact Child.noConfusion
    · rw [update_of_ne hne]
      exact h.refers dl de leaf' hde hans

/-- A list of new elements becomes the first delay list of an answer. -/
theorem addDl (hchild : s.child leaf = .asi) (deList asl : Nat → Option Nat)
    (hdl : dl = s.dls.pool.newEntry.1) (hE : E dl = [])
    (hpool : e.pool.Holds (update E dl l))
    (hnew : ∀ de ∈ l, ∀ dl', de ∉ E dl')
    (hkeep : ∀ dl', ∀ de ∈ E dl', e.pnde de = s.des.pnde de ∧ e.ansSubst de = s.des.ansSubst de ∧
      e.owner de = s.des.owner de)
    (hrefers : ∀ de ∈ l, ∀ leaf, e.ansSubst de = some leaf → s.child leaf ≠ .null)
    (hdeList : ∀ dl', deList dl' = if dl' = dl then l.head? else s.dls.deList dl')
    (hasl : ∀ dl', asl dl' = if dl' = dl then some leaf else s.dls.asl dl') :
    ∃ pndes pnde own', recordDeUsage dl e.pool.nextFree s.pndes e l.head? =
        some (pndes, { e with pnde := pnde }) ∧
      DelayTables.OK { s with
        pndes := pndes
        des := { e with pnde := pnde }
        dls := ⟨s.dls.pool.newEntry.2.setNext dl (s.dlList leaf), deList, asl⟩
        dlList := update s.dlList leaf (some dl) } own' (update E dl l)
        (update D leaf (dl :: D leaf)) := by
  obtain ⟨hdls, hfresh⟩ := h.dls.newEntry leaf
  rw [← hdl] at hdls hfresh
  have huses : Uses s.pndes e own fun dl de => de ∈ E dl :=
    h.uses.congr_des fun dl' de hde => ⟨(hkeep dl' de hde).1, (hkeep dl' de hde).2.2⟩
  have hself : update E dl l dl = l := update_self ..
  have hlinked := hpool.linked dl
  have hlength := hpool.length_le dl
  rw [hself] at hlinked hlength
  obtain ⟨pndes, pnde, own', hrecord, huses'⟩ := recordDeUsage_spec dl huses hlinked
    hlength hnew
  have hmem : ∀ dl' de, de ∈ update E dl l dl' ↔ de ∈ E dl' ∨ dl' = dl ∧ de ∈ l := by
    intro dl' de
    rcases eq_or_ne dl' dl with rfl | hne
    · simp [hE]
    · simp [hne]
  have hD : ∀ leaf' dl', dl' ∈ update D leaf (dl :: D leaf) leaf' ↔
      dl' ∈ D leaf' ∨ dl' = dl ∧ leaf' = leaf := by
    intro leaf' dl'
    rcases eq_or_ne leaf' leaf with rfl | hne
    · simp [or_comm]
    · simp [hne]
  have hne : ∀ leaf' dl', dl' ∈ D leaf' → dl' ≠ dl := by
    rintro leaf' dl' hdl' rfl
    exact hfresh leaf' hdl'
  refine ⟨pndes, pnde, own', hrecord, huses'.congr hmem, hpool, ?_, ?_, ?_, ?_, ?_, ?_, ?_⟩
  · rw [h.dlList leaf hchild]
    exact hdls
  · intro leaf' hleaf'
    show update s.dlList leaf (some dl) leaf' = _
    rcases eq_or_ne leaf' leaf with rfl | hne
    · rw [update_self, update_self]
      rfl
    · rw [update_of_ne hne, update_of_ne hne]
      exact h.dlList leaf' hleaf'
  · intro leaf' dl' hdl'
    rcases (hD leaf' dl').mp hdl' with hdl' | ⟨-, rfl⟩
    · exact h.conditional leaf' dl' hdl'
    · exact hchild
  · intro leaf' dl' hdl'
    show deList dl' = _
    rw [hdeList]
    rcases (hD leaf' dl').mp hdl' with hdl' | ⟨rfl, -⟩
    · rw [if_neg (hne leaf' dl' hdl'), update_of_ne (hne leaf' dl' hdl')]
      exact h.deList leaf' dl' hdl'
    · rw [if_pos rfl, hself]
  · intro leaf' dl' hdl'
    show asl dl' = _
    rw [hasl]
    rcases (hD leaf' dl').mp hdl' with hdl' | ⟨rfl, rfl⟩
    · rw [if_neg (hne leaf' dl' hdl')]
      exact h.asl leaf' dl' hdl'
    · exact if_pos rfl
  · intro dl' de hde
    rcases (hmem dl' de).mp hde with hde | ⟨rfl, -⟩
    · obtain ⟨leaf', hdl'⟩ := h.inList dl' de hde
      exact ⟨leaf', (hD leaf' dl').mpr (Or.inl hdl')⟩
    · exact ⟨leaf, (hD leaf dl').mpr (Or.inr ⟨rfl, rfl⟩)⟩
  · intro dl' de leaf' hde hans
    rcases (hmem dl' de).mp hde with hde | ⟨-, hde⟩
    · exact h.refers dl' de leaf' hde ((hkeep dl' de hde).2.1.symm.trans hans)
    · exact hrefers de hde leaf' hans

end

/-- The tables if elements of the delay register are left. -/
theorem doDelayStuff_eq {s0 : DelayTables} {failed : Nat → Bool} {sfExists : Bool} {head : Nat}
    {delayreg : List (Nat × Option Nat)} (hcond : !sfExists || (s.child leaf).isConditional)
    (hintern : s.internDes failed delayreg none s.des = (some head, e))
    (hs0 : s0 = if s.child leaf = .null then s.createAsiInfo leaf else s)
    (hdl : dl = s.dls.pool.newEntry.1) :
    s.doDelayStuff failed leaf sfExists delayreg =
      (recordDeUsage dl e.pool.nextFree s0.pndes e (some head)).map fun r => { s0 with
        pndes := r.1
        des := r.2
        dls := ⟨s0.dls.pool.newEntry.2.setNext dl (s0.dlList leaf),
          update s.dls.deList dl (some head),
          update (update s.dls.asl dl none) dl (some leaf)⟩
        dlList := update s0.dlList leaf (some dl) } := by
  subst hs0 hdl
  rw [DelayTables.doDelayStuff, if_pos hcond, internDelayList, hintern]
  by_cases hnull : s.child leaf = .null
  · simp only [markConditionalAnswer, if_pos hnull, DelayTables.createAsiInfo, update_self,
      Option.map_eq_bind]
    rfl
  · simp only [markConditionalAnswer, if_neg hnull, update_self, Option.map_eq_bind]
    rfl

/-- A new answer or a conditional one is returned with delays. It gets a delay list of what is left
of the delays, if anything is left. -/
theorem doDelayStuff (h : s.OK own E D) (failed : Nat → Bool) {sfExists : Bool}
    (delayreg : List (Nat × Option Nat)) (hexists : sfExists = false → s.child leaf = .null)
    (hvalid : s.child leaf ≠ .deleted) :
    ∃ s' own' E' D', s.doDelayStuff failed leaf sfExists delayreg = some s' ∧
      s'.OK own' E' D' ∧
      if (!sfExists || (s.child leaf).isConditional) ∧ s.remaining failed delayreg ≠ [] then
        s'.child = update s.child leaf .asi ∧
          s'.contents E' D' leaf = s.remaining failed delayreg :: s.contents E D leaf
      else s'.child = s.child ∧ s'.contents E' D' leaf = s.contents E D leaf := by
  by_cases hcond : !sfExists || (s.child leaf).isConditional
  case neg =>
    refine ⟨s, own, E, D, if_neg hcond, h, ?_⟩
    rw [if_neg fun hadds => hcond hadds.1]
    exact ⟨rfl, rfl⟩
  have hchild : s.child leaf = .null ∨ s.child leaf = .asi := by
    cases hc : s.child leaf with
    | null => exact Or.inl rfl
    | asi => exact Or.inr rfl
    | deleted => exact absurd hc hvalid
    | unconditional =>
      cases sfExists with
      | false => exact absurd (hc.symm.trans (hexists rfl)) Child.noConfusion
      | true => simp [hc, Child.isConditional] at hcond
  set dl := s.dls.pool.newEntry.1 with hdl
  have hE : E dl = [] := by
    rw [eq_nil_iff_forall_not_mem]
    intro de hde
    obtain ⟨leaf', hmem⟩ := h.inList dl de hde
    exact (h.dls.newEntry leaf).2 leaf' hmem
  obtain ⟨l, e', hintern, hpool, hnew, hkeep, hisCond, hsame, hmap⟩ :=
    internDes_spec s failed delayreg dl h.des
  rw [hE, append_nil] at hintern hpool
  cases l with
  | nil =>
    -- no element of the delay register is left
    rw [← hE, update_eq_self] at hpool
    have heq : s.doDelayStuff failed leaf sfExists delayreg = some { s with des := e' } := by
      rw [DelayTables.doDelayStuff, if_pos hcond, internDelayList]
      rw [show s.internDes failed delayreg none s.des = (none, e') from hintern]
    refine ⟨_, own, E, D, heq, ⟨?_, hpool, h.dls, h.dlList, h.conditional, h.deList, h.asl,
      h.inList, ?_⟩, ?_⟩
    · exact h.uses.congr_des fun dl' de hde => ⟨(hkeep dl' de hde).1, (hkeep dl' de hde).2.2⟩
    · intro dl' de leaf' hde hans
      exact h.refers dl' de leaf' hde ((hkeep dl' de hde).2.1.symm.trans hans)
    · rw [if_neg fun hadds => hadds.2 hmap.symm]
      refine ⟨rfl, map_congr_left fun dl' _ => map_congr_left fun de hde => ?_⟩
      exact hsame dl' de hde
  | cons head rest =>
    obtain ⟨s0, hs0, hOK, hasi⟩ : ∃ s0 : DelayTables,
        s0 = (if s.child leaf = .null then s.createAsiInfo leaf else s) ∧ s0.OK own E D ∧
          s0.child leaf = .asi := by
      refine ⟨_, rfl, ?_⟩
      split
      next hnull => exact ⟨h.createAsiInfo hnull, update_self ..⟩
      next hnull => exact ⟨h, hchild.resolve_left hnull⟩
    have hsame : s0.des = s.des ∧ s0.dls = s.dls ∧
        ∀ leaf', (s.child leaf').isConditional → s0.child leaf' ≠ .null := by
      rw [hs0]
      split
      next hnull =>
        refine ⟨rfl, rfl, fun leaf' hleaf' => ?_⟩
        have hne : leaf' ≠ leaf := by
          rintro rfl
          rw [hnull] at hleaf'
          exact absurd hleaf' Bool.false_ne_true
        show update s.child leaf .asi leaf' ≠ .null
        rw [update_of_ne hne]
        intro hnull'
        rw [hnull'] at hleaf'
        exact absurd hleaf' Bool.false_ne_true
      next =>
        refine ⟨rfl, rfl, fun leaf' hleaf' hnull' => ?_⟩
        rw [hnull'] at hleaf'
        exact absurd hleaf' Bool.false_ne_true
    obtain ⟨hdes, hdls, hcond'⟩ := hsame
    obtain ⟨pndes, pnde, own', hrecord, hOK'⟩ := hOK.addDl hasi
      (update s.dls.deList dl (some head))
      (update (update s.dls.asl dl none) dl (some leaf))
      (by rw [hdls]) hE hpool hnew (hdes ▸ hkeep)
      (fun de hde leaf' hans => hcond' leaf' (hisCond de hde leaf' hans))
      (by
        intro dl'
        rw [hdls]
        exact update_apply ..)
      (by
        intro dl'
        rw [hdls, update_idem]
        exact update_apply ..)
    refine ⟨_, own', _, _, ?_, hOK', ?_⟩
    · have hrecord' : recordDeUsage dl e'.pool.nextFree s0.pndes e' (some head) =
        some (pndes, { e' with pnde := pnde }) := hrecord
      rw [doDelayStuff_eq hcond hintern hs0 hdl, hrecord']
      rfl
    · have hleft : s.remaining failed delayreg ≠ [] := by
        rw [← hmap]
        exact cons_ne_nil _ _
      have hchild' : s0.child = update s.child leaf .asi := by
        rw [hs0]
        split
        next => rfl
        next hnull => rw [← hchild.resolve_left hnull, update_eq_self]
      have hne : ∀ dl' ∈ D leaf, dl' ≠ dl := by
        rintro dl' hdl' rfl
        exact (h.dls.newEntry leaf).2 leaf hdl'
      rw [if_pos ⟨hcond, hleft⟩]
      refine ⟨hchild', ?_⟩
      show (update D leaf (dl :: D leaf) leaf).map
        (fun dl' => (update E dl (head :: rest) dl').map e'.elem) = _
      rw [update_self, map_cons, update_self, hmap]
      congr 1
      refine map_congr_left fun dl' hdl' => ?_
      rw [update_of_ne (hne dl' hdl')]
      exact map_congr_left fun de hde => hsame dl' de hde

end DelayTables.OK

end XSBEngine.Delay
