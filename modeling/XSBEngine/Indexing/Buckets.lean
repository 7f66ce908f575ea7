import XSBEngine.Indexing.Walk

/-!
# Where clauses and calls meet in indexes

When the bucket of a clause is the one that a call selects, for all terms that may unify.
-/

namespace XSBEngine.Indexing

open Heap List Option PrefixTerms

/-! ### What is computed -/

/-- The result for what is seen: a bucket, or that the index is not used. -/
def Finds {α : Type*} (W : HashWords) (known : Prop) (key : Symbol → Key) (size : Nat)
    (value : Int → α) (unused : α) : Seen → Option α → Prop
  | .all l, o => o = some (value (weigh size ((l.map key).map W.word) % size : Nat))
  | .free, o => o = some unused
  | .stray, o => known → o = none

variable {V V' : Type*} {mem mem' : Nat → Cell} {addr : V → Nat} {addr' : V' → Nat}
  {head : Cell} {p : Psc} {reg : Nat → Cell} {arity ind size : Nat} {t : Tuple Symbol V}
  {t' : Tuple Symbol V'} {W : HashWords}

theorem starSeen_length {k : Nat} {l : List (Symbol ⊕ V)} {l' : List Symbol}
    (h : starSeen k l = .all l') : l'.length ≤ k := by
  induction k generalizing l l' with
  | zero => cases h; exact le_rfl
  | succ k ih =>
    cases l with
    | nil => cases h; exact Nat.zero_le _
    | cons x l =>
      cases x with
      | inr v => cases h
      | inl f =>
        rw [starSeen] at h
        split at h
        · cases h
        · cases hs : starSeen k l with
          | all l1 =>
            rw [hs] at h
            cases h
            exact Nat.succ_le_succ (ih hs)
          | free | stray => rw [hs] at h; cases h

/-- Two walks that see all they look for. -/
theorem Seen.then_all {s s' : Seen} {l : List Symbol} (h : s.then s' = .all l) :
    ∃ l1 l2, s = .all l1 ∧ s' = .all l2 ∧ l = l1 ++ l2 := by
  cases s with
  | all l1 =>
    cases s' with
    | all l2 => cases h; exact ⟨l1, l2, rfl, rfl, rfl⟩
    | free | stray => cases h
  | free | stray => cases h

theorem byteSeen_length {b : Nat} {l : List Symbol} (h : byteSeen t b = .all l) :
    l.length ≤ 5 := by
  rw [byteSeen] at h
  split at h
  · cases h
    exact Nat.zero_le _
  · split at h
    · exact (starSeen_length h).trans (by decide)
    · exact starSeen_length h

theorem bytesSeen_length {seen : Nat → Seen} (hseen : ∀ b l, seen b = .all l → l.length ≤ 5)
    {bs : List Nat} {l : List Symbol} (h : bytesSeen seen bs = .all l) :
    l.length ≤ 5 * bs.length := by
  induction bs generalizing l with
  | nil => cases h; exact Nat.zero_le _
  | cons b bs ih =>
    obtain ⟨l1, l2, h1, h2, rfl⟩ := Seen.then_all h
    have hlen1 := hseen b l1 h1
    have hlen2 := ih h2
    rw [length_append, length_cons]
    omega

/-- The sum of a joint index is reduced to a bucket. -/
theorem Computes.finds {α : Type*} {known : Prop} {key : Symbol → Key} {s : Seen}
    {o : Option (Option (BitVec 64))} {value : Int → α} {unused : α}
    (h : Computes W known size 0 s o) (hkey : ∀ f, key f = f.key)
    (hlen : ∀ l, s = .all l → l.length ≤ 15) (hpos : 0 < size) (hlt : size < 2 ^ 31) :
    Finds W known key size value unused s (o.map fun
      | none => unused
      | some hashval => value (bucketOf hashval size)) := by
  cases s with
  | all l =>
    have hle : size * 2 ^ (l.map Symbol.key).length ≤ 2 ^ 63 := by
      rw [length_map]
      calc size * 2 ^ l.length ≤ 2 ^ 31 * 2 ^ 15 :=
            Nat.mul_le_mul (by omega) (Nat.pow_le_pow_right Nat.two_pos (hlen l rfl))
        _ ≤ 2 ^ 63 := by decide
    have hmap : l.map key = l.map Symbol.key := map_congr_left fun f _ => hkey f
    rw [Computes] at h
    rw [Finds, h, hmap, ← bucketOf_addAll W hpos hle]
    rfl
  | free =>
    rw [Computes] at h
    rw [Finds, h]
    rfl
  | stray =>
    intro hknown
    rw [h hknown]
    rfl

theorem weigh_single (size : Nat) (w : BitVec 64) : weigh size [w] % size = ihash w size := by
  show (2 * 0 + w.toNat % size) % size = _
  rw [Nat.mul_zero, Nat.zero_add, Nat.mod_mod, ihash]

/-- `hash_val` finds a bucket by what it sees. -/
theorem hashVal_spec (W : HashWords) (h : HeadAt mem addr head p t) (hind : IndexOK p.arity ind)
    (hpos : 0 < size) (hlt : size < 2 ^ 31) :
    ∃ N, ∀ n ≥ N, Finds W (StrayFunctors mem) (headKey ind) size id (-1) (headSeen ind t)
      (hashVal W mem n ind head size) := by
  obtain ⟨-, a, ⟨N0, hN0⟩, -, hargs⟩ := h
  rw [IndexOK] at hind
  rw [headSeen]
  by_cases hsingle : ind ≤ 0xff
  case pos =>
    rw [if_pos hsingle] at hind
    obtain ⟨N, d, hd, hcase⟩ := (hargs.get hind.1 hind.2).plain
    refine ⟨N0 + N, fun n hn => ?_⟩
    have hcode : hashVal W mem n ind head size =
        if d = .string nilName then some (ihash 0 size : Int)
        else if isUnbound d then some (-1)
        else (valToHash W mem d).map fun w => (ihash w size : Int) := by
      simp only [hashVal, hN0 n (by omega), bind_eq_bind, bind_some, if_pos hsingle,
        hd n (by omega)]
    rw [if_pos hsingle, hcode]
    rcases hcase with ⟨hs, a', ha⟩ | ⟨f, args, hs, hr⟩
    · rw [hs, Finds, if_neg (by rintro rfl; rcases ha with h | h <;> cases h), isUnbound_var ha]
      rfl
    · have hnil : d = .string nilName ↔ f = .string nilName := by
        cases hr <;> simp
      rw [hs, Finds, map_singleton, map_singleton, weigh_single, headKey, hr.bound,
        hr.valToHash W]
      by_cases hf : f = .string nilName
      · rw [if_pos (hnil.mpr hf), if_pos ⟨hsingle, hf⟩]
        rfl
      · rw [if_neg (fun h => hf (hnil.mp h)), if_neg Bool.false_ne_true,
          if_neg (fun h => hf h.2)]
        rfl
  case neg =>
    rw [if_neg hsingle] at hind
    have hbytes : ∃ N, ∀ n ≥ N, Computes W (StrayFunctors mem) size 0
        (bytesSeen (byteSeen t) (indexBytes ind))
        (overBytes (hashByte W mem n (fun j => mem (a + j)) size) (indexBytes ind) 0) := by
      apply overBytes_spec
      intro b hb
      exact hashByte_spec W size (hind b hb) fun j hj hle _ => hargs.get hj hle
    obtain ⟨N, hN⟩ := hbytes
    refine ⟨N0 + N, fun n hn => ?_⟩
    have hcode : hashVal W mem n ind head size =
        (overBytes (hashByte W mem n (fun j => mem (a + j)) size) (indexBytes ind) 0).map fun
          | none => -1
          | some hashval => bucketOf hashval size := by
      rw [hashVal, hN0 n (by omega), bind_eq_bind, bind_some]
      exact if_neg hsingle
    rw [if_neg hsingle, hcode]
    exact (hN n (by omega)).finds (fun f => if_neg fun h => hsingle h.1)
      (fun l hl => bytesSeen_length (fun _ _ => byteSeen_length) hl) hpos hlt

/-- The clause is put in the bucket that is found, or in the only one of a table of size one. -/
theorem clauseBucket_spec (W : HashWords) (h : HeadAt mem addr head p t)
    (hind : IndexOK p.arity ind) (hpos : 0 < size) (hlt : size < 2 ^ 31) :
    ∃ N, ∀ n ≥ N, Finds W (StrayFunctors mem) (headKey ind) size (·, size) (0, 1)
      (headSeen ind t) (clauseBucket W mem n ind head size) := by
  obtain ⟨N, hN⟩ := hashVal_spec W h hind hpos hlt
  refine ⟨N, fun n hn => ?_⟩
  have hcode := hN n hn
  cases hs : headSeen ind t with
  | all l =>
    rw [hs] at hcode
    rw [Finds] at hcode ⊢
    rw [clauseBucket, hcode, map_some, id, if_neg (by omega)]
  | free =>
    rw [hs] at hcode
    rw [Finds] at hcode ⊢
    rw [clauseBucket, hcode]
    rfl
  | stray =>
    rw [hs] at hcode
    intro hknown
    rw [clauseBucket, hcode hknown]
    rfl

/-- A cell that no term has. -/
def IsFunctor (c : Cell) : Prop := ∃ q, c = .functor q

theorem hashByte_functor (W : HashWords) (mem : Nat → Cell) (n size : Nat) {arg : Nat → Cell}
    (h : IsFunctor (arg 0x80)) (hashval : BitVec 64) :
    hashByte W mem n arg size 0x80 hashval = none := by
  obtain ⟨q, hq⟩ := h
  rw [hashByte, if_neg (by decide), if_pos le_rfl, hq]
  cases n <;> rfl

/-- The instruction finds a bucket by what it sees. -/
theorem switch_spec (W : HashWords) (h : CallAt mem addr reg arity t) (hind : IndexOK arity ind)
    (hpos : 0 < size) (hlt : size < 2 ^ 31) :
    ∃ N, ∀ n ≥ N, Finds W (StrayFunctors mem ∧ IsFunctor (reg 0)) (callKey ind) size some none
      (callSeen ind t) (switch W mem n reg ind size) := by
  obtain ⟨-, hargs⟩ := h
  rw [IndexOK] at hind
  rw [callSeen]
  by_cases hsingle : ind ≤ 0xff
  case pos =>
    rw [if_pos hsingle] at hind
    obtain ⟨N, d, hd, hcase⟩ := (hargs.get hind.1 hind.2).plain
    refine ⟨N, fun n hn => ?_⟩
    rw [if_pos hsingle, switch, if_neg (by omega), switchonbound, hd n hn, bind_eq_bind,
      bind_some]
    rcases hcase with ⟨hs, a, rfl | rfl⟩ | ⟨f, args, hs, hr⟩
    · rw [hs]
      rfl
    · rw [hs]
      rfl
    · rw [hs, Finds, map_singleton, map_singleton, weigh_single, callKey,
        if_pos hsingle]
      cases hr with
      | int | float | list => rfl
      | string s =>
        show some (some (ihash (if s = nilName then 0 else W.string s) size : Int)) =
          some (some (ihash (W.word (if s = nilName then .word 0 else .string s)) size : Int))
        split <;> rfl
      | boxedInt hbox hid hint hhi hlo =>
        simp only [(Root.boxedInt hbox hid hint hhi hlo).structHashValue W]
        rfl
      | boxedFloat hbox hid hmiddle hlow =>
        simp only [(Root.boxedFloat hbox hid hmiddle hlow).structHashValue W]
        rfl
      | struct hp hne =>
        simp only [(Root.struct hp hne).structHashValue W]
        rfl
  case neg =>
    rw [if_neg hsingle] at hind
    have hbytes : ∃ N, ∀ n ≥ N, Computes W (StrayFunctors mem ∧ IsFunctor (reg 0)) size 0
        (bytesSeen (fun b => if b = 0x80 then .stray else byteSeen t b) (indexBytes ind))
        (overBytes (switchByte W mem n reg size) (indexBytes ind) 0) := by
      apply overBytes_spec
      intro b hb hashval
      have hbyte := hind b hb
      by_cases hreg : b = 0x80
      · refine ⟨0, fun n _ => ?_⟩
        rw [if_pos hreg]
        intro hknown
        rw [switchByte_eq W mem n reg hbyte.1 hpos hlt, hreg]
        exact hashByte_functor W mem n size hknown.2 hashval
      · have hget : ∀ j, 0 < j → j ≤ arity → b = j ∧ j ≤ 0x80 ∨ b = j + 0x80 →
            Holds mem addr [reg (j % 2 ^ 7)] (t.nth (j - 1)) := by
          intro j hj hle hbj
          have hbound := hbyte.1
          have hmod : j % 2 ^ 7 = j := by omega
          rw [hmod]
          exact hargs.get hj hle
        obtain ⟨N, hN⟩ := hashByte_spec W size hbyte hget hashval
        refine ⟨N, fun n hn => ?_⟩
        have hcode := hN n hn
        rw [switchByte_eq W mem n reg hbyte.1 hpos hlt, if_neg hreg]
        cases hs : byteSeen t b with
        | all l | free => rw [hs] at hcode; exact hcode
        | stray => rw [hs] at hcode; exact fun hknown => hcode hknown.1
    obtain ⟨N, hN⟩ := hbytes
    refine ⟨N, fun n hn => ?_⟩
    rw [if_neg hsingle, switch, if_pos (by omega), switchon3bound]
    have hmap : ∀ o : Option (Option (BitVec 64)),
        o.map (fun j => j.map fun j => bucketOf j size) = o.map fun
          | none => none
          | some hashval => some (bucketOf hashval size) := by
      rintro (- | - | h) <;> rfl
    rw [hmap]
    apply (hN n hn).finds (fun f => if_neg hsingle) _ hpos hlt
    intro l hl
    apply bytesSeen_length _ hl
    intro b l hb
    split at hb
    · cases hb
    · exact byteSeen_length hb

end XSBEngine.Indexing
