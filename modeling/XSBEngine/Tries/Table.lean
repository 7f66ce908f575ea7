import XSBEngine.Tries.Invariant

/-!
# Hash tables under construction

`hashify_children` and `expand_trie_ht` move nodes one by one with `TrieHT_InsertNode`. The
invariant of both loops says which nodes are in the table and where they may stand.
-/

namespace XSBEngine.Tries

open List Trie

/-! ### Changes of choice point bits -/

/-- Only choice point bits and hashed flags of the nodes in `nodes` change. -/
structure Recoded (t t' : Trie) (nodes : List BTNptr) : Prop where
  root : t'.root = t.root
  freeList : t'.freeList = t.freeList
  nextStruct : t'.nextStruct = t.nextStruct
  same : ∀ q, SameNode (t'.node q) (t.node q)
  other : ∀ q, q ∉ nodes → t'.node q = t.node q

variable {t t' t'' : Trie} {nodes nodes' : List BTNptr} {p : BTNptr}

theorem Recoded.refl (t : Trie) (nodes : List BTNptr) : Recoded t t nodes :=
  ⟨rfl, rfl, rfl, fun _ => .refl _, fun _ _ => rfl⟩

theorem Recoded.trans (h : Recoded t t' nodes) (h' : Recoded t' t'' nodes) :
    Recoded t t'' nodes where
  root := h'.root.trans h.root
  freeList := h'.freeList.trans h.freeList
  nextStruct := h'.nextStruct.trans h.nextStruct
  same q := (h'.same q).trans (h.same q)
  other q hq := (h'.other q hq).trans (h.other q hq)

theorem Recoded.mono (h : Recoded t t' nodes) (hs : ∀ q ∈ nodes, q ∈ nodes') :
    Recoded t t' nodes' :=
  { h with other := fun q hq => h.other q fun hm => hq (hs q hm) }

theorem Recoded.modify (t : Trie) {f : BTN → BTN} (hp : p ∈ nodes)
    (hf : SameNode (f (t.node p)) (t.node p)) : Recoded t (t.modify p f) nodes where
  root := rfl
  freeList := rfl
  nextStruct := rfl
  same q := by
    by_cases h : q = p
    · subst h; rw [modify_node_self]; exact hf
    · rw [modify_node_ne t f h]; exact .refl _
  other q hq := modify_node_ne t f fun h => hq (h ▸ hp)

/-! ### Bucket arrays -/

theorem flatten_set {bs : List (List BTNptr)} {i : Nat} (h : i < bs.length) (l : List BTNptr) :
    ((bs.set i l).flatten ++ bs[i]).Perm (bs.flatten ++ l) := by
  induction bs generalizing i with
  | nil => exact absurd h (Nat.not_lt_zero i)
  | cons b bs ih =>
    cases i with
    | zero =>
      simp only [set_cons_zero, flatten_cons, getElem_cons_zero]
      refine perm_append_comm.trans ?_
      rw [append_assoc]
      exact perm_append_comm.append_left b
    | succ i =>
      simp only [set_cons_succ, flatten_cons, getElem_cons_succ, append_assoc]
      exact (ih (by simpa using h)).append_left b

/-- A bucket array while nodes are moved into it: the choice point bits fit, every node stands
where `place` allows it, and together the buckets hold `content`. -/
structure TableInv (t : Trie) (bs : List (List BTNptr)) (n : Nat) (place : Nat → BTNptr → Prop)
    (content : List BTNptr) : Prop where
  length : bs.length = n
  cps : ∀ b ∈ bs, CpsOK t.node b
  place : ∀ i b, bs[i]? = some b → ∀ c ∈ b, place i c
  perm : bs.flatten.Perm content

variable {bs : List (List BTNptr)} {n seed : Nat} {place place' : Nat → BTNptr → Prop}
  {content : List BTNptr}

section

variable (h : TableInv t bs n place content)
include h

theorem TableInv.mono
    (hp : ∀ i, i < n → ∀ c, place i c → place' i c) : TableInv t bs n place' content :=
  { h with
    place := fun i b hb c hc =>
      hp i (h.length ▸ (List.getElem?_eq_some_iff.mp hb).1) c (h.place i b hb c hc) }

theorem TableInv.mem_content {i : Nat} (hi : i < bs.length)
    {c : BTNptr} (hc : c ∈ bs[i]) : c ∈ content :=
  h.perm.mem_iff.mp (mem_flatten.mpr ⟨_, getElem_mem hi, hc⟩)

/-- Buckets of a table without repetitions are disjoint. -/
theorem TableInv.index_unique (hnd : content.Nodup) {i j : Nat}
    (hi : i < bs.length) (hj : j < bs.length) {c : BTNptr} (hci : c ∈ bs[i]) (hcj : c ∈ bs[j]) :
    i = j := by
  have hf := (nodup_flatten.mp (h.perm.nodup_iff.mpr hnd)).2
  by_contra hne
  rcases Nat.lt_or_gt_of_ne hne with hlt | hlt
  · exact (pairwise_iff_getElem.mp hf i j hi hj hlt) hci hcj
  · exact (pairwise_iff_getElem.mp hf j i hj hi hlt) hcj hci

/-- The choice point bits of a changed table, bucket by bucket. -/
theorem TableInv.set_cps (hnd : content.Nodup) {i : Nat}
    (hi : i < bs.length) {l : List BTNptr} (hl : CpsOK t'.node l)
    (hother : ∀ q, q ∉ bs[i] → q ∈ content → (t'.node q).instr = (t.node q).instr) :
    ∀ b ∈ bs.set i l, CpsOK t'.node b := by
  intro b hb
  obtain ⟨j, hj, rfl⟩ := getElem_of_mem hb
  rw [length_set] at hj
  by_cases hji : i = j
  · subst hji
    rwa [getElem_set_self]
  · rw [getElem_set_ne hji]
    refine (h.cps _ (getElem_mem hj)).congr fun c hc => hother c (fun hci => ?_) ?_
    · exact hji (h.index_unique hnd hi hj hci hc)
    · exact h.mem_content hj hc

theorem TableInv.set_place {i : Nat} {l : List BTNptr}
    (hl : ∀ c ∈ l, place i c) : ∀ j b, (bs.set i l)[j]? = some b → ∀ c ∈ b, place j c := by
  intro j b hb c hc
  rw [List.getElem?_set] at hb
  split at hb
  next hij =>
    subst hij
    split at hb
    · cases hb
      exact hl c hc
    · exact absurd hb (by simp)
  next => exact h.place j b hb c hc

/-- `TrieHT_InsertNode` adds one node to the table. -/
theorem TableInv.insertNode (hnd : content.Nodup)
    (hp : p ∉ content) (hn : seed < n)
    (hplace : place (trieHash (t.node p).symbol seed) p) :
    TableInv (t.trieHTInsertNode bs seed p).1 (t.trieHTInsertNode bs seed p).2 n place
        (p :: content) ∧
      Recoded t (t.trieHTInsertNode bs seed p).1 (p :: content) := by
  have hi : trieHash (t.node p).symbol seed < bs.length := by
    have := trieHash_le (t.node p).symbol seed
    rw [h.length]
    omega
  unfold trieHTInsertNode
  generalize trieHash (t.node p).symbol seed = i at hplace hi
  have hget : bs.getD i [] = bs[i] := by simp [hi]
  have hperm : ∀ l, l = p :: bs[i] → (bs.set i l).flatten.Perm (p :: content) := by
    rintro l rfl
    have := flatten_set hi (p :: bs[i])
    have h2 : (bs.flatten ++ p :: bs[i]).Perm (p :: bs.flatten ++ bs[i]) := perm_middle
    exact ((perm_append_right_iff _).mp (this.trans h2)).trans (h.perm.cons p)
  have hpi : p ∉ bs[i] := fun hm => hp (h.mem_content hi hm)
  cases hb : bs[i] with
  | nil =>
    simp only [hget, hb]
    have hself := force_nocp (t.node p).instr
    refine ⟨⟨by rw [length_set, h.length], ?_, ?_, hperm _ (by rw [hb])⟩,
      .modify t (mem_cons_self ..) (.mapInstr hself.2)⟩
    · refine h.set_cps hnd hi (.single ?_) fun q _ hq => ?_
      · rw [modify_node_self]; exact hself.1
      · have hqp : q ≠ p := fun he => hp (he ▸ hq)
        rw [modify_node_ne t _ hqp]
    · exact h.set_place fun c hc => by rw [mem_singleton.mp hc]; exact hplace
  | cons q rest =>
    simp only [hget, hb]
    have hself := force_try (t.node p).instr
    have hcps : CpsOK t.node (q :: rest) := hb ▸ h.cps _ (getElem_mem hi)
    have hnodup : (q :: rest).Nodup :=
      hb ▸ (nodup_flatten.mp (h.perm.nodup_iff.mpr hnd)).1 _ (getElem_mem hi)
    have hqp : q ≠ p := fun he => hpi (by rw [hb, ← he]; exact mem_cons_self ..)
    have hqc : q ∈ content := h.mem_content hi (hb ▸ mem_cons_self ..)
    have hrot : instrKind (rotateInstrCP (t.node q).instr) = instrKind (t.node q).instr := by
      have hh := hcps.head
      split at hh
      · exact (rotate_nocp hh).2
      · exact (rotate_try hh).2
    refine ⟨⟨by rw [length_set, h.length], ?_, ?_, hperm _ (by rw [hb])⟩, ?_⟩
    · refine h.set_cps hnd hi (hcps.push ?_ ?_ fun c hc => ?_) fun c hc hcc => ?_
      · rw [modify_node_ne _ _ (Ne.symm hqp), modify_node_self]; exact hself.1
      · rw [modify_node_self, modify_node_ne _ _ hqp]; rfl
      · have hcq : c ≠ q := fun he => (nodup_cons.mp hnodup).1 (he ▸ hc)
        have hcp : c ≠ p := fun he => hpi (by rw [hb, ← he]; exact mem_cons_of_mem _ hc)
        rw [modify_node_ne _ _ hcq, modify_node_ne _ _ hcp]
      · have hcq : c ≠ q := fun he => hc (by rw [hb, he]; exact mem_cons_self ..)
        have hcp : c ≠ p := fun he => hp (he ▸ hcc)
        rw [modify_node_ne _ _ hcq, modify_node_ne _ _ hcp]
    · refine h.set_place fun c hc => ?_
      rcases mem_cons.mp hc with rfl | hc
      · exact hplace
      · exact h.place i _ (by rw [List.getElem?_eq_getElem hi, hb]) c hc
    · refine (Recoded.modify t (mem_cons_self ..) (.mapInstr hself.2)).trans
        (.modify _ (mem_cons_of_mem _ hqc) (.mapInstr ?_))
      rw [modify_node_ne _ _ hqp]
      exact hrot

theorem TableInv.recode (hi : ∀ c ∈ content, (t'.node c).instr = (t.node c).instr) :
    TableInv t' bs n place content :=
  { h with
    cps := fun b hb => (h.cps b hb).congr fun c hc =>
      hi c (h.perm.mem_iff.mp (mem_flatten.mpr ⟨b, hb, hc⟩)) }

end

/-! ### Hashing a chain -/

/-- The loop of `hashify_children` moves every node of the chain into the table. -/
theorem TableInv.hashifyLoop (h : TableInv t bs n place content) (hnd : (nodes ++ content).Nodup)
    (hn : seed < n) (hplace : ∀ p ∈ nodes, place (trieHash (t.node p).symbol seed) p) :
    TableInv (hashifyLoop nodes t bs seed).1 (hashifyLoop nodes t bs seed).2 n place
        (nodes.reverse ++ content) ∧
      Recoded t (hashifyLoop nodes t bs seed).1 (nodes ++ content) := by
  induction nodes generalizing t bs content with
  | nil => exact ⟨h, .refl _ _⟩
  | cons p nodes ih =>
    rw [cons_append] at hnd
    obtain ⟨hpn, hnd'⟩ := nodup_cons.mp hnd
    rw [mem_append, not_or] at hpn
    obtain ⟨h₁, r1⟩ := h.insertNode hnd'.of_append_right hpn.2 hn
      (hplace p (mem_cons_self ..))
    have r2 : Recoded (t.trieHTInsertNode bs seed p).1
        ((t.trieHTInsertNode bs seed p).1.modify p BTN.makeHashedNode) (p :: content) :=
      .modify _ (mem_cons_self ..) (.makeHashed _)
    have h₂ : TableInv ((t.trieHTInsertNode bs seed p).1.modify p BTN.makeHashedNode)
        (t.trieHTInsertNode bs seed p).2 n place (p :: content) := by
      refine h₁.recode fun c _ => ?_
      by_cases hc : c = p
      · rw [hc, modify_node_self]; rfl
      · rw [modify_node_ne _ _ hc]
    have hperm : (nodes ++ p :: content).Perm (p :: nodes ++ content) := perm_middle
    have hsym := fun q => ((r1.trans r2).same q).symbol
    obtain ⟨h3, r3⟩ := ih h₂ (hperm.nodup_iff.mpr hnd) fun q hq => by
      rw [hsym q]
      exact hplace q (mem_cons_of_mem _ hq)
    refine ⟨?_, ?_⟩
    · rw [reverse_cons, append_assoc]
      exact h3
    · have hsub : ∀ q ∈ p :: content, q ∈ p :: nodes ++ content := fun q hq =>
        hperm.mem_iff.mp (mem_append_right _ hq)
      exact ((r1.trans r2).mono hsub).trans (r3.mono fun q hq => hperm.mem_iff.mp hq)

/-! ### Expanding a table -/

/-- The inner loop of `expand_trie_ht` moves every node of the bucket. -/
theorem TableInv.rehashBucket (h : TableInv t bs n place content) (hnd : (nodes ++ content).Nodup)
    (hn : seed < n) (hplace : ∀ p ∈ nodes, place (trieHash (t.node p).symbol seed) p) :
    TableInv (rehashBucket nodes t bs seed).1 (rehashBucket nodes t bs seed).2 n place
        (nodes.reverse ++ content) ∧
      Recoded t (rehashBucket nodes t bs seed).1 (nodes ++ content) := by
  induction nodes generalizing t bs content with
  | nil => exact ⟨h, .refl _ _⟩
  | cons p nodes ih =>
    rw [cons_append] at hnd
    obtain ⟨hpn, hnd'⟩ := nodup_cons.mp hnd
    rw [mem_append, not_or] at hpn
    obtain ⟨h₁, r1⟩ := h.insertNode hnd'.of_append_right hpn.2 hn
      (hplace p (mem_cons_self ..))
    have hperm : (nodes ++ p :: content).Perm (p :: nodes ++ content) := perm_middle
    obtain ⟨h₂, r2⟩ := ih h₁ (hperm.nodup_iff.mpr hnd) fun q hq => by
      rw [(r1.same q).symbol]
      exact hplace q (mem_cons_of_mem _ hq)
    refine ⟨?_, ?_⟩
    · rw [reverse_cons, append_assoc]
      exact h₂
    · have hsub : ∀ q ∈ p :: content, q ∈ p :: nodes ++ content := fun q hq =>
        hperm.mem_iff.mp (mem_append_right _ hq)
      exact (r1.mono hsub).trans (r2.mono fun q hq => hperm.mem_iff.mp hq)

/-- After the buckets below `i + len` every node stands in its new bucket, or in one of the
lower buckets still to come. -/
theorem TableInv.rehashLoop (m : Nat) (hseed : seed < n) (hmn : m ≤ n) (hnd : content.Nodup)
    (len : Nat) : ∀ i t bs, i + len = m →
      TableInv t bs n (fun j c => trieHash (t.node c).symbol seed = j ∨ (i ≤ j ∧ j < m)) content →
      TableInv (rehashLoop (List.range' i len) t bs seed).1
          (rehashLoop (List.range' i len) t bs seed).2 n
          (fun j c => trieHash (t.node c).symbol seed = j) content ∧
        Recoded t (rehashLoop (List.range' i len) t bs seed).1 content := by
  induction len with
  | zero =>
    intro i t bs hi h
    refine ⟨h.mono fun j _ c hc => hc.resolve_right fun ⟨h₁, h₂⟩ => ?_, .refl _ _⟩
    omega
  | succ len ih =>
    intro i t bs hi h
    have hib : i < bs.length := by rw [h.length]; omega
    have hget : bs.getD i [] = bs[i] := by simp [hib]
    have hstep : Trie.rehashLoop (List.range' i (len + 1)) t bs seed =
        Trie.rehashLoop (List.range' (i + 1) len)
          (Trie.rehashBucket bs[i] t (bs.set i []) seed).1
          (Trie.rehashBucket bs[i] t (bs.set i []) seed).2 seed := by
      rw [List.range'_succ, Trie.rehashLoop, foldl_cons]
      simp only [hget]
      rfl
    -- The bucket is emptied, and its nodes are inserted again.
    have hsplit : (bs[i] ++ (bs.set i []).flatten).Perm content := by
      refine (perm_append_comm.trans ?_).trans h.perm
      simpa using flatten_set hib []
    have hempty : TableInv t (bs.set i []) n
        (fun j c => trieHash (t.node c).symbol seed = j ∨ (i + 1 ≤ j ∧ j < m))
        (bs.set i []).flatten := by
      refine ⟨by rw [length_set, h.length], ?_, ?_, .refl _⟩
      · exact h.set_cps hnd hib (cpsOK_nil _) fun _ _ _ => rfl
      · intro j b hb c hc
        rw [List.getElem?_set] at hb
        split at hb
        next hij =>
          obtain rfl : [] = b := by simpa using hb.symm
          simp at hc
        next hij =>
          rcases h.place j b hb c hc with hc | ⟨h₁, h₂⟩
          · exact .inl hc
          · exact .inr ⟨by omega, h₂⟩
    obtain ⟨h₁, r1⟩ := hempty.rehashBucket (hsplit.nodup_iff.mpr hnd) hseed
      (fun p _ => .inl rfl)
    have hcontent : ((bs[i]).reverse ++ (bs.set i []).flatten).Perm content :=
      ((reverse_perm _).append_right _).trans hsplit
    have r1' := r1.mono fun q hq => hsplit.mem_iff.mp hq
    obtain ⟨h₂, r2⟩ := ih (i + 1) _ _ (by omega)
      ({ h₁ with
        perm := h₁.perm.trans hcontent
        place := fun j b hb c hc => by
          rw [(r1.same c).symbol]
          exact h₁.place j b hb c hc })
    rw [hstep]
    refine ⟨h₂.mono fun j _ c hc => ?_, r1'.trans r2⟩
    rwa [(r1.same c).symbol] at hc

end XSBEngine.Tries
