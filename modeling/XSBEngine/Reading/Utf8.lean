import XSBEngine.Reading.Chars

/-!
# Reading back UTF-8

A stream that yields the bytes of a code point gives the code point, `utf8_GetCode` after
`utf8_codepoint_to_str`, `XSB/emu/token_xsb.c:425–443, 573–617`.
-/

namespace XSBEngine.Reading

variable {σ : Type}

/-- The stream yields the bytes one after the other. -/
inductive Feeds (src : CharSource σ) : σ → List UInt8 → σ → Prop where
  | nil (st : σ) : Feeds src st [] st
  | cons {st st' st'' : σ} {b : UInt8} {bytes : List UInt8} :
      src.getC st = ((b.toNat : Int), st') → Feeds src st' bytes st'' →
        Feeds src st (b :: bytes) st''

namespace Feeds

variable {src : CharSource σ} {st st' : σ} {a b : List UInt8}

theorem split (h : Feeds src st (a ++ b) st') :
    ∃ mid, Feeds src st a mid ∧ Feeds src mid b st' := by
  induction a generalizing st with
  | nil => exact ⟨st, .nil st, h⟩
  | cons x a ih =>
    cases h with
    | cons hget hrest =>
      obtain ⟨mid, ha, hb⟩ := ih hrest
      exact ⟨mid, .cons hget ha, hb⟩

/-- Each byte makes the rest of the input shorter. -/
theorem size_le (h : Feeds src st a st') : src.size st' + a.length ≤ src.size st := by
  induction h with
  | nil st => simp
  | cons hget _ ih =>
    have hlt := src.size_getC _ (by rw [hget]; exact Int.natCast_nonneg _)
    rw [hget] at hlt
    simp only [List.length_cons] at hlt ih ⊢
    omega

/-- A file yields its bytes. -/
theorem file (a rest : List UInt8) : Feeds fileSource (a ++ rest) a rest := by
  induction a with
  | nil => exact .nil rest
  | cons x a ih => exact .cons rfl ih

end Feeds

theorem shiftLeft_or {hi lo k : Nat} (h : lo < 2 ^ k) : hi <<< k ||| lo = hi * 2 ^ k + lo := by
  rw [← Nat.shiftLeft_add_eq_or_of_lt h, Nat.shiftLeft_eq]

/-- The three parts of a code point of three bytes. -/
theorem shiftLeft_or_three {a b c : Nat} (hb : b < 64) (hc : c < 64) :
    a <<< 12 ||| b <<< 6 ||| c = a * 4096 + b * 64 + c := by
  have hb' : b <<< 6 < 2 ^ 12 := by
    rw [Nat.shiftLeft_eq]
    omega
  rw [shiftLeft_or hb', Nat.shiftLeft_eq b 6,
    show a * 2 ^ 12 + b * 2 ^ 6 = (a * 64 + b) <<< 6 by rw [Nat.shiftLeft_eq]; omega,
    shiftLeft_or (by omega)]
  omega

/-- The four parts of a code point of four bytes. -/
theorem shiftLeft_or_four {a b c d : Nat} (hb : b < 64) (hc : c < 64) (hd : d < 64) :
    a <<< 18 ||| b <<< 12 ||| c <<< 6 ||| d = a * 262144 + b * 4096 + c * 64 + d := by
  have hb' : b <<< 12 < 2 ^ 18 := by
    rw [Nat.shiftLeft_eq]
    omega
  rw [shiftLeft_or hb', Nat.shiftLeft_eq b 12,
    show a * 2 ^ 18 + b * 2 ^ 12 = (a * 64 + b) <<< 12 by rw [Nat.shiftLeft_eq]; omega,
    shiftLeft_or_three hc hd]
  omega

theorem toNat_toByte {d : Int} (h : 0 ≤ d) (hlt : d < 256) : ((toByte d).toNat : Int) = d := by
  rw [toByte, Int.emod_eq_of_lt h hlt, UInt8.toNat_ofNat_of_lt']
  · exact Int.toNat_of_nonneg h
  · rw [UInt8.size]
    omega

section Decoding

variable {src : CharSource σ} {st st' : σ} {c : Int}

/-- A byte of a sequence, as the stream yields it. -/
theorem feeds_toByte {d : Int} {bytes : List UInt8} (hd : 0 ≤ d) (hlt : d < 256)
    (h : Feeds src st (toByte d :: bytes) st') :
    ∃ mid, src.getC st = (d, mid) ∧ Feeds src mid bytes st' := by
  cases h with
  | cons hget hrest => exact ⟨_, by rw [hget, toNat_toByte hd hlt], hrest⟩

theorem feeds_nil (h : Feeds src st [] st') : st = st' := by
  cases h
  rfl

/-- A code of one byte. -/
theorem getCode_ascii (h : Feeds src st [toByte c] st') (hc : 0 ≤ c) (hlt : c < 128) :
    getCode src .utf8 st = (c, st') := by
  obtain ⟨mid, hget, hrest⟩ := feeds_toByte hc (by omega) h
  obtain rfl := feeds_nil hrest
  simp only [getCode, hget]
  rw [if_neg (by omega), utf8GetCode, if_pos hlt]

theorem lead_two {k : Int} (h : 0 ≤ k) (hlt : k < 32) :
    bits (192 + k) 0xe0 = 0xc0 ∧ bits (192 + k) 0x1f = k.toNat := by
  have hall : ∀ k < 32, bits (192 + (k : Nat)) 0xe0 = 0xc0 ∧ bits (192 + (k : Nat)) 0x1f = k := by
    decide
  have hk := hall k.toNat (by omega)
  rwa [Int.toNat_of_nonneg h] at hk

theorem lead_three {k : Int} (h : 0 ≤ k) (hlt : k < 16) :
    bits (224 + k) 0xe0 ≠ 0xc0 ∧ bits (224 + k) 0xf0 = 0xe0 ∧ bits (224 + k) 0xf = k.toNat := by
  have hall : ∀ k < 16, bits (224 + (k : Nat)) 0xe0 ≠ 0xc0 ∧ bits (224 + (k : Nat)) 0xf0 = 0xe0 ∧
      bits (224 + (k : Nat)) 0xf = k := by decide
  have hk := hall k.toNat (by omega)
  rwa [Int.toNat_of_nonneg h] at hk

theorem lead_four {k : Int} (h : 0 ≤ k) (hlt : k < 8) :
    bits (240 + k) 0xe0 ≠ 0xc0 ∧ bits (240 + k) 0xf0 ≠ 0xe0 ∧ bits (240 + k) 0xf8 = 0xf0 ∧
      bits (240 + k) 0xf = k.toNat := by
  have hall : ∀ k < 8, bits (240 + (k : Nat)) 0xe0 ≠ 0xc0 ∧ bits (240 + (k : Nat)) 0xf0 ≠ 0xe0 ∧
      bits (240 + (k : Nat)) 0xf8 = 0xf0 ∧ bits (240 + (k : Nat)) 0xf = k := by decide
  have hk := hall k.toNat (by omega)
  rwa [Int.toNat_of_nonneg h] at hk

theorem tail_bits {k : Int} (h : 0 ≤ k) (hlt : k < 64) :
    continues (128 + k) ∧ bits (128 + k) 0x3f = k.toNat := by
  have hall : ∀ k < 64, continues (128 + (k : Nat)) ∧ bits (128 + (k : Nat)) 0x3f = k := by decide
  have hk := hall k.toNat (by omega)
  rwa [Int.toNat_of_nonneg h] at hk

/-- The bytes of a code point are read back as this code point. -/
theorem getCode_utf8CodepointToStr (h : Feeds src st (utf8CodepointToStr c) st') (hc : 0 ≤ c)
    (hlt : c < 0x200000) : getCode src .utf8 st = (c, st') := by
  rw [utf8CodepointToStr] at h
  split at h
  · next hone => exact getCode_ascii h hc hone
  · next hone =>
    split at h
    · next htwo =>
      obtain ⟨st1, h1, h⟩ := feeds_toByte (by omega) (by omega) h
      obtain ⟨st2, h2, h⟩ := feeds_toByte (by omega) (by omega) h
      obtain rfl := feeds_nil h
      obtain ⟨hlead, hhigh⟩ := lead_two (k := c / 64) (by omega) (by omega)
      obtain ⟨hcont, hlow⟩ := tail_bits (k := c % 64) (by omega) (by omega)
      simp only [getCode, h1]
      rw [if_neg (by omega), utf8GetCode, if_neg (by omega), if_pos hlead]
      simp only [h2, hcont, if_true, hhigh, hlow]
      rw [shiftLeft_or (by omega)]
      congr 1
      omega
    · next htwo =>
      split at h
      · next hthree =>
        obtain ⟨st1, h1, h⟩ := feeds_toByte (by omega) (by omega) h
        obtain ⟨st2, h2, h⟩ := feeds_toByte (by omega) (by omega) h
        obtain ⟨st3, h3, h⟩ := feeds_toByte (by omega) (by omega) h
        obtain rfl := feeds_nil h
        obtain ⟨hnot2, hlead, hhigh⟩ := lead_three (k := c / 4096) (by omega) (by omega)
        obtain ⟨hcont2, hmid⟩ := tail_bits (k := c / 64 % 64) (by omega) (by omega)
        obtain ⟨hcont3, hlow⟩ := tail_bits (k := c % 64) (by omega) (by omega)
        simp only [getCode, h1]
        rw [if_neg (by omega), utf8GetCode, if_neg (by omega), if_neg hnot2, if_pos hlead]
        simp only [h2, h3, hcont2, hcont3, if_true, hhigh, hmid, hlow]
        rw [shiftLeft_or_three (by omega) (by omega)]
        congr 1
        omega
      · next hthree =>
        obtain ⟨st1, h1, h⟩ := feeds_toByte (by omega) (by omega) h
        obtain ⟨st2, h2, h⟩ := feeds_toByte (by omega) (by omega) h
        obtain ⟨st3, h3, h⟩ := feeds_toByte (by omega) (by omega) h
        obtain ⟨st4, h4, h⟩ := feeds_toByte (by omega) (by omega) h
        obtain rfl := feeds_nil h
        obtain ⟨hnot2, hnot3, hlead, hhigh⟩ := lead_four (k := c / 262144) (by omega) (by omega)
        obtain ⟨hcont2, hmid⟩ := tail_bits (k := c / 4096 % 64) (by omega) (by omega)
        obtain ⟨hcont3, hmid'⟩ := tail_bits (k := c / 64 % 64) (by omega) (by omega)
        obtain ⟨hcont4, hlow⟩ := tail_bits (k := c % 64) (by omega) (by omega)
        simp only [getCode, h1]
        rw [if_neg (by omega), utf8GetCode, if_neg (by omega), if_neg hnot2, if_neg hnot3,
          if_pos hlead]
        simp only [h2, h3, h4, hcont2, hcont3, hcont4, if_true, hhigh, hmid, hmid', hlow]
        rw [shiftLeft_or_four (by omega) (by omega) (by omega)]
        congr 1
        omega

end Decoding

end XSBEngine.Reading
