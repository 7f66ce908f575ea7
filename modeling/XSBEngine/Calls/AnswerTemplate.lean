import Mathlib

/-!
# Counts in the answer template

The number of variables, of attributed variables and of abstracted subterms of a call in one cell
(`XSB/emu/tab_structs.h:1250–1288`).
-/

namespace XSBEngine.Calls

/-- `encode_ansTempl_ctrs`, which `makeint` and `int_val` leave as it is. -/
def encodeAnsTemplCtrs (attvars abstractSize ctr : BitVec 32) : BitVec 32 :=
  attvars <<< 28 ||| abstractSize <<< 16 ||| ctr

/-- The numbers that `get_var_and_attv_nums` reads. -/
structure TemplateCounts where
  varNum : BitVec 32
  attvNum : BitVec 32
  abstrSize : BitVec 32
deriving Repr, DecidableEq

/-- `get_var_and_attv_nums`. -/
def getVarAndAttvNums (tmpInt : BitVec 32) : TemplateCounts where
  varNum := tmpInt &&& 0xffff
  attvNum := tmpInt.sshiftRight 28
  abstrSize := (tmpInt &&& 0x3f0000).sshiftRight 16

/-- `get_template_size`. -/
def getTemplateSize (tmpInt : BitVec 32) : BitVec 32 := tmpInt &&& 0xffff

/-- The counts of a call are read from its answer template. -/
structure Recovered (template : BitVec 32) (attvCtr abstractions ctr : Nat) : Prop where
  varNum : (getVarAndAttvNums template).varNum.toInt = ctr
  attvNum : (getVarAndAttvNums template).attvNum.toInt = attvCtr
  abstrSize : (getVarAndAttvNums template).abstrSize.toInt = abstractions
  templateSize : (getTemplateSize template).toInt = ctr

variable {attvCtr abstractions ctr : Nat}

/-- The three fields do not overlap. -/
theorem encodeAnsTemplCtrs_toNat (hattv : attvCtr < 8) (habstr : abstractions < 64)
    (hctr : ctr < 2 ^ 16) :
    (encodeAnsTemplCtrs attvCtr abstractions ctr).toNat =
      2 ^ 28 * attvCtr + (2 ^ 16 * abstractions + ctr) := by
  rw [Nat.two_pow_add_eq_or_of_lt (by omega), Nat.two_pow_add_eq_or_of_lt hctr, ← Nat.or_assoc]
  simp only [encodeAnsTemplCtrs, BitVec.toNat_or, BitVec.toNat_shiftLeft, BitVec.toNat_ofNat,
    BitVec.natCast_eq_ofNat, Nat.shiftLeft_eq]
  congr 2 <;> omega

theorem toInt_and_mask (t : BitVec 32) : (t &&& 0xffff).toInt = (t.toNat % 2 ^ 16 : Nat) := by
  have hand : (t &&& 0xffff).toNat = t.toNat % 2 ^ 16 := by
    rw [BitVec.toNat_and]
    exact Nat.and_two_pow_sub_one_eq_mod t.toNat 16
  rw [BitVec.toInt_eq_toNat_of_lt (by omega), hand]

theorem toInt_abstrSize (t : BitVec 32) :
    (getVarAndAttvNums t).abstrSize.toInt = ((t.sshiftRight 16).toNat % 2 ^ 6 : Nat) := by
  have hshift : (getVarAndAttvNums t).abstrSize = t.sshiftRight 16 &&& 0x3f :=
    BitVec.sshiftRight_and_distrib t 0x3f0000 16
  have hand : (t.sshiftRight 16 &&& 0x3f).toNat = (t.sshiftRight 16).toNat % 2 ^ 6 := by
    rw [BitVec.toNat_and]
    exact Nat.and_two_pow_sub_one_eq_mod _ 6
  rw [hshift, BitVec.toInt_eq_toNat_of_lt (by omega), hand]

theorem toInt_attvNum (t : BitVec 32) :
    (getVarAndAttvNums t).attvNum.toInt = t.toInt / 2 ^ 28 := by
  rw [getVarAndAttvNums, BitVec.toInt_sshiftRight, Int.shiftRight_eq_div_pow]
  rfl

/-- Four bits, one of them the sign, are left for the attributed variables, and six for the
abstracted subterms. -/
theorem recovered_iff (hctr : ctr < 2 ^ 16) :
    Recovered (encodeAnsTemplCtrs attvCtr abstractions ctr) attvCtr abstractions ctr ↔
      attvCtr < 8 ∧ abstractions < 64 := by
  constructor
  case mp =>
    rintro ⟨-, hattv, habstr, -⟩
    rw [toInt_attvNum] at hattv
    rw [toInt_abstrSize] at habstr
    have hlt := (encodeAnsTemplCtrs attvCtr abstractions ctr).toInt_lt
    omega
  case mpr =>
    rintro ⟨hattv, habstr⟩
    have ht := encodeAnsTemplCtrs_toNat hattv habstr hctr
    have hint : (encodeAnsTemplCtrs attvCtr abstractions ctr).toInt =
        (encodeAnsTemplCtrs attvCtr abstractions ctr).toNat :=
      BitVec.toInt_eq_toNat_of_lt (by omega)
    have hmsb : (encodeAnsTemplCtrs attvCtr abstractions ctr).msb = false := by
      rw [BitVec.msb_eq_false_iff_two_mul_lt]
      omega
    have hvar := toInt_and_mask (encodeAnsTemplCtrs attvCtr abstractions ctr)
    refine ⟨hvar.trans ?_, ?_, ?_, hvar.trans ?_⟩
    · omega
    · rw [toInt_attvNum]
      omega
    · rw [toInt_abstrSize, BitVec.sshiftRight_eq_of_msb_false hmsb, BitVec.toNat_ushiftRight,
        Nat.shiftRight_eq_div_pow]
      omega
    · omega

end XSBEngine.Calls
