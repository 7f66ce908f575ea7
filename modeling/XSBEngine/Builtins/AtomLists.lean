import XSBEngine.Builtins.Terms
import XSBEngine.Reading.Decoders
import XSBEngine.Reading.QuotedNames

/-!
# Atoms and lists of their characters

`atom_to_list` behind `atom_codes/2` and `atom_chars/2`, `XSB/emu/std_pred_xsb_i.h:317–450`.
-/

namespace XSBEngine.Builtins

open List

open Heap (CString)
open Reading

/-- `string_find`: the string in a buffer. -/
def stringFind (buffer : List UInt8) : CString where
  bytes := buffer.takeWhile (· ≠ 0)
  noNul := fun hmem => by simpa using mem_takeWhile_imp hmem

/-- `call_type`. -/
inductive CallType where
  | atomCodes
  | atomChars
deriving DecidableEq

/-- `call_name`. -/
def CallType.callName : CallType → String
  | .atomCodes => "atom_codes/2"
  | .atomChars => "atom_chars/2"

/-- `elt_type`. -/
def CallType.eltType : CallType → String
  | .atomCodes => "character_code"
  | .atomChars => "character"

/-- What a call of `atom_to_list` does: it binds the first argument to an atom, or it unifies the
second one with a list. -/
inductive Outcome where
  | bindString (name : CString)
  | unify (list : Term)
deriving DecidableEq

/-- The buffer `atomnameaddr` of `atomnamelen` bytes, with the bytes in front of `atomname`. -/
structure NameBuffer where
  text : List UInt8
  len : Nat

namespace NameBuffer

/-- `mem_alloc(INITIAL_NAMELEN,LEAK_SPACE)`. -/
def initial : NameBuffer := ⟨[], 256⟩

/-- The test in front of each character. The new length is an `int`: a negative one is no size for
which `mem_realloc` finds memory. -/
def reserve (b : NameBuffer) : Except Abort NameBuffer :=
  if b.len ≤ b.text.length + 3 + 1 then
    if 2 * b.len < 2 ^ 31 then .ok { b with len := 2 * b.len } else .error .memoryError
  else .ok b

/-- Bytes are written at `atomname`. -/
def write (b : NameBuffer) (bytes : List UInt8) : Except Abort NameBuffer :=
  if b.text.length + bytes.length ≤ b.len then .ok { b with text := b.text ++ bytes }
  else .error .outside

end NameBuffer

/-- The code of an element, of the type that the call asks for. -/
def elementCode (call : CallType) (e : Term) : Except Abort Int :=
  match call, e with
  | .atomCodes, .int val => .ok (val.bmod (2 ^ 32))
  | .atomChars, .string name => .ok (utf8CharToCodepoint name.bytes).1
  | _, .ref _ => .error (.instantiationError call.callName 2)
  | _, e => .error (.typeError call.eltType e call.callName 2)

/-- The test of the code. -/
def checkCode (call : CallType) (charset : Charset) (c : Int) : Except Abort Unit :=
  if c < 0 ∨ c > 255 ∧ charset = .latin1 then
    .error (.representationError "character_code" "(Non-LATIN_1 Character)" call.callName 2)
  else .ok ()

/-- The loop over the list. Terms are finite, so that `is_cyclic` is false. -/
def buildName (call : CallType) (charset : Charset) :
    Term → NameBuffer → Except Abort NameBuffer
  | .string s, b =>
    if s = nilName then b.write [0] else .error (.typeError "list" (.string s) call.callName 2)
  | .list head tail, b => do
    let c ← elementCode call head
    checkCode call charset c
    let b ← b.reserve
    let b ← b.write (utf8CodepointToStr c)
    buildName call charset tail b
  | .ref _, _ => .error (.instantiationError call.callName 2)
  | t, _ => .error (.typeError "list" t call.callName 2)

/-- One turn of `while (*atomname != '\0')`: the element, made of the code or of the bytes that
have been passed. -/
def elementOf (call : CallType) (string : List UInt8) : Term :=
  let r := utf8CharToCodepoint string
  match call with
  | .atomCodes => .int r.1
  | .atomChars => .string (stringFind (string.take (string.length - r.2.length)))

/-- The loop over the name. -/
def elementsFrom (call : CallType) : Nat → List UInt8 → List Term
  | 0, _ => []
  | fuel + 1, string =>
    if string.headD 0 = 0 then []
    else elementOf call string :: elementsFrom call fuel (utf8CharToCodepoint string).2

/-- `atom_to_list`. -/
def atomToList (call : CallType) (charset : Charset) (term list : Term) : Except Abort Outcome :=
  match term with
  | .ref _ => do
    let b ← buildName call charset list .initial
    return .bindString (stringFind b.text)
  | .string name => .ok (.unify (.ofList (elementsFrom call name.bytes.length name.bytes)))
  | term => .error (.typeError "atom" term call.callName 1)

/-- The element stands for the code point. -/
def Spells (call : CallType) (e : Term) (c : Int) : Prop :=
  match call with
  | .atomCodes => e = .int c
  | .atomChars => ∃ name, e = .string name ∧ name.bytes = utf8CodepointToStr c

/-- The codes that are encoded in up to four bytes, but for the one that ends a string. -/
def IsCode (c : Int) : Prop := 1 ≤ c ∧ c ≤ 0x1fffff

theorem cstring_eq {n m : CString} (h : n.bytes = m.bytes) : n = m := by
  cases n
  cases m
  cases h
  rfl

section Buffer

variable {b b' : NameBuffer} {call : CallType} {charset : Charset}

/-- The buffer has room for the 0. -/
def NameBuffer.Open (b : NameBuffer) : Prop := b.text.length < b.len ∧ 256 ≤ b.len

theorem NameBuffer.initial_open : initial.Open := ⟨by decide, by decide⟩

theorem NameBuffer.reserve_ok (hopen : b.Open) (h : b.reserve = .ok b') :
    b'.text = b.text ∧ b'.text.length + 4 < b'.len ∧ 256 ≤ b'.len := by
  obtain ⟨hlt, hlen⟩ := hopen
  rw [reserve] at h
  split at h
  · split at h
    · cases h
      exact ⟨rfl, by simp only; omega, by simp only; omega⟩
    · cases h
  · next hroom =>
    cases h
    exact ⟨rfl, by omega, hlen⟩

theorem NameBuffer.reserve_error {e : Abort} (h : b.reserve = .error e) :
    e = .memoryError ∧ 2 ^ 30 ≤ b.text.length + 4 := by
  rw [reserve] at h
  split at h
  · split at h
    · cases h
    · cases h
      exact ⟨rfl, by omega⟩
  · cases h

/-- A character is written within a buffer that has been made large enough, and leaves room
for the 0. -/
theorem NameBuffer.write_code (hroom : b.text.length + 4 < b.len) (hlen : 256 ≤ b.len) (c : Int) :
    ∃ b', b.write (utf8CodepointToStr c) = .ok b' ∧ b'.text = b.text ++ utf8CodepointToStr c ∧
      b'.Open := by
  have hfour := length_utf8CodepointToStr_le c
  refine ⟨{ b with text := b.text ++ utf8CodepointToStr c }, ?_, rfl, ?_, hlen⟩
  · rw [write, if_pos (by omega)]
  · show (b.text ++ utf8CodepointToStr c).length < b.len
    rw [length_append]
    omega

theorem elementCode_ne_outside (call : CallType) (e : Term) :
    elementCode call e ≠ .error .outside := by
  cases call
  all_goals
    cases e
    all_goals nofun

theorem checkCode_ne_outside (call : CallType) (charset : Charset) (c : Int) :
    checkCode call charset c ≠ .error .outside := by
  rw [checkCode]
  split
  all_goals nofun

/-- No list makes the loop write outside of the buffer. -/
theorem buildName_ne_outside (call : CallType) (charset : Charset) (list : Term) (hopen : b.Open) :
    buildName call charset list b ≠ .error .outside := by
  induction list generalizing b with
  | ref a | attv a | int i | cs psc args => nofun
  | string s =>
    have hlt := hopen.1
    rw [buildName]
    split
    · rw [NameBuffer.write, if_pos (by rw [length_singleton]; omega)]
      nofun
    · nofun
  | list head tail _ ih =>
    rw [buildName]
    cases hc : elementCode call head with
    | error e =>
      have hne := elementCode_ne_outside call head
      rw [hc] at hne
      simpa only [bind, Except.bind, ne_eq, Except.error.injEq] using hne
    | ok c =>
      simp only [bind, Except.bind]
      cases hok : checkCode call charset c with
      | error e =>
        have hne := checkCode_ne_outside call charset c
        rw [hok] at hne
        simpa only [ne_eq, Except.error.injEq] using hne
      | ok u =>
        simp only
        cases hb : b.reserve with
        | error e =>
          simp only [(NameBuffer.reserve_error hb).1]
          nofun
        | ok b1 =>
          obtain ⟨-, hroom, hlen⟩ := NameBuffer.reserve_ok hopen hb
          obtain ⟨b2, hwrite, -, hopen2⟩ := NameBuffer.write_code hroom hlen c
          simp only [hwrite]
          exact ih hopen2

end Buffer

section Spelled

variable {b : NameBuffer} {call : CallType} {charset : Charset} {e : Term} {c : Int}
  {es : List Term} {cs : List Int}

theorem toByte_ne_zero {d : Int} (h : 0 < d) (hlt : d < 256) : 0 ≠ toByte d := by
  intro heq
  have hzero := congrArg UInt8.toNat heq
  have := toNat_toByte (by omega : 0 ≤ d) hlt
  rw [← hzero] at this
  simp only [UInt8.toNat_zero] at this
  omega

/-- No byte of a code but 0 ends a string. -/
theorem noNul_utf8CodepointToStr (h : IsCode c) : 0 ∉ utf8CodepointToStr c := by
  obtain ⟨hpos, hle⟩ := h
  rw [utf8CodepointToStr]
  split
  · simpa using toByte_ne_zero (by omega) (by omega)
  · split
    · simpa using ⟨toByte_ne_zero (by omega) (by omega), toByte_ne_zero (by omega) (by omega)⟩
    · split
      · simpa using ⟨toByte_ne_zero (by omega) (by omega), toByte_ne_zero (by omega) (by omega),
          toByte_ne_zero (by omega) (by omega)⟩
      · simpa using ⟨toByte_ne_zero (by omega) (by omega), toByte_ne_zero (by omega) (by omega),
          toByte_ne_zero (by omega) (by omega), toByte_ne_zero (by omega) (by omega)⟩

theorem utf8CodepointToStr_ne_nil (c : Int) : utf8CodepointToStr c ≠ [] := by
  rw [utf8CodepointToStr]
  repeat' split
  all_goals exact List.cons_ne_nil _ _

/-- The string in front of the 0. -/
theorem stringFind_bytes {text : List UInt8} (h : 0 ∉ text) (rest : List UInt8) :
    (stringFind (text ++ 0 :: rest)).bytes = text := by
  show (text ++ 0 :: rest).takeWhile (· ≠ 0) = text
  rw [takeWhile_append_of_pos]
  · simp
  · intro a ha
    have : a ≠ 0 := fun hzero => h (hzero ▸ ha)
    simpa using this

theorem stringFind_self (name : CString) : stringFind name.bytes = name := by
  apply cstring_eq
  show name.bytes.takeWhile (· ≠ 0) = name.bytes
  apply takeWhile_eq_self_iff.mpr
  intro a ha
  have : a ≠ 0 := fun hzero => name.noNul (hzero ▸ ha)
  simpa using this

/-- The code of an element is the one it stands for. -/
theorem Spells.elementCode_eq (h : Spells call e c) (hc : IsCode c) :
    elementCode call e = .ok c := by
  obtain ⟨hpos, hle⟩ := hc
  cases call with
  | atomCodes =>
    rw [show e = .int c from h, elementCode,
      Int.bmod_eq_of_le (by omega) (by omega)]
  | atomChars =>
    obtain ⟨name, rfl, hname⟩ := h
    have hread := utf8CharToCodepoint_utf8CodepointToStr (by omega : 0 ≤ c) (by omega) []
    rw [append_nil] at hread
    rw [elementCode, hname, hread]

/-- One turn of the loop over a name. -/
theorem Spells.elementOf_eq (h : Spells call e c) (hc : IsCode c) (rest : List UInt8) :
    elementOf call (utf8CodepointToStr c ++ rest) = e := by
  obtain ⟨hpos, hle⟩ := hc
  simp only [elementOf, utf8CharToCodepoint_utf8CodepointToStr (by omega : 0 ≤ c) (by omega)]
  cases call with
  | atomCodes => exact h.symm
  | atomChars =>
    obtain ⟨name, rfl, hname⟩ := h
    simp only [length_append, Nat.add_sub_cancel, take_left]
    rw [← hname, stringFind_self]

/-- The loop over a name gives the elements that it has been made from. -/
theorem elementsFrom_spelled (h : List.Forall₂ (Spells call) es cs) (hcs : ∀ c ∈ cs, IsCode c)
    (fuel : Nat) (hfuel : (cs.flatMap utf8CodepointToStr).length ≤ fuel) :
    elementsFrom call fuel (cs.flatMap utf8CodepointToStr) = es := by
  induction h generalizing fuel with
  | nil => cases fuel <;> rfl
  | @cons e c es cs hspell h ih =>
    have hc := hcs c mem_cons_self
    rw [flatMap_cons] at hfuel ⊢
    have hpos := length_pos_iff.mpr (utf8CodepointToStr_ne_nil c)
    rw [length_append] at hfuel
    cases fuel with
    | zero => omega
    | succ fuel =>
      have hhead : (utf8CodepointToStr c ++ cs.flatMap utf8CodepointToStr).headD 0 ≠ 0 := by
        have hnonul := noNul_utf8CodepointToStr hc
        cases hbytes : utf8CodepointToStr c with
        | nil => exact absurd hbytes (utf8CodepointToStr_ne_nil c)
        | cons a bytes =>
          rw [hbytes] at hnonul
          exact fun hzero => hnonul (hzero ▸ mem_cons_self)
      rw [elementsFrom, if_neg hhead, hspell.elementOf_eq hc,
        utf8CharToCodepoint_utf8CodepointToStr (by have := hc.1; omega) (by have := hc.2; omega),
        ih (fun c' hc' => hcs c' (mem_cons_of_mem _ hc')) fuel (by omega)]

/-- What the loop over a list of codes leaves behind. -/
def Builds (charset : Charset) (cs : List Int) (b : NameBuffer) :
    Except Abort NameBuffer → Prop
  | .ok b' => b'.text = b.text ++ (cs.flatMap utf8CodepointToStr ++ [0])
  | .error e =>
    e = .memoryError ∧ 2 ^ 30 ≤ b.text.length + (cs.flatMap utf8CodepointToStr).length + 3 ∨
      charset = .latin1 ∧ ∃ c ∈ cs, 255 < c

theorem buildName_spelled (charset : Charset) (h : List.Forall₂ (Spells call) es cs)
    (hcs : ∀ c ∈ cs, IsCode c)
    (hopen : b.Open) : Builds charset cs b (buildName call charset (.ofList es) b) := by
  induction h generalizing b with
  | nil =>
    have hlt := hopen.1
    rw [Term.ofList, Term.nil, buildName, if_pos rfl, NameBuffer.write,
      if_pos (by rw [length_singleton]; omega)]
    rfl
  | @cons e c es cs hspell h ih =>
    have hc := hcs c mem_cons_self
    have hpos := length_pos_iff.mpr (utf8CodepointToStr_ne_nil c)
    rw [Term.ofList, buildName, hspell.elementCode_eq hc]
    by_cases herror : c < 0 ∨ c > 255 ∧ charset = .latin1
    · have hpos := hc.1
      have hlatin := herror.resolve_left (by omega)
      simp only [bind, Except.bind, checkCode, if_pos herror]
      exact Or.inr ⟨hlatin.2, c, mem_cons_self, hlatin.1⟩
    · simp only [bind, Except.bind, checkCode, if_neg herror]
      cases hb : b.reserve with
      | error e =>
        obtain ⟨rfl, hlarge⟩ := NameBuffer.reserve_error hb
        refine Or.inl ⟨rfl, ?_⟩
        rw [flatMap_cons, length_append]
        omega
      | ok b1 =>
        obtain ⟨htext1, hroom, hlen⟩ := NameBuffer.reserve_ok hopen hb
        obtain ⟨b2, hwrite, htext2, hopen2⟩ := NameBuffer.write_code hroom hlen c
        have hrest := ih (fun c' hc' => hcs c' (mem_cons_of_mem _ hc')) hopen2
        simp only [hwrite]
        generalize buildName call charset (.ofList es) b2 = r at hrest ⊢
        cases r with
        | ok b' =>
          show b'.text = _
          rw [show b'.text = _ from hrest, htext2, htext1, flatMap_cons]
          simp only [append_assoc]
        | error e =>
          rcases hrest with ⟨rfl, hlarge⟩ | ⟨hlatin, c', hmem, hgt⟩
          · refine Or.inl ⟨rfl, ?_⟩
            rw [htext2, htext1, length_append] at hlarge
            rw [flatMap_cons, length_append]
            omega
          · exact Or.inr ⟨hlatin, c', mem_cons_of_mem _ hmem, hgt⟩

/-- The element that stands for a code. -/
theorem exists_spelled (call : CallType) (hc : IsCode c) : ∃ e, Spells call e c := by
  cases call with
  | atomCodes => exact ⟨.int c, rfl⟩
  | atomChars =>
    exact ⟨.string ⟨utf8CodepointToStr c, noNul_utf8CodepointToStr hc⟩, _, rfl, rfl⟩

theorem exists_spelled_list (call : CallType) (hcs : ∀ c ∈ cs, IsCode c) :
    ∃ es, List.Forall₂ (Spells call) es cs := by
  induction cs with
  | nil => exact ⟨[], List.Forall₂.nil⟩
  | cons c cs ih =>
    obtain ⟨e, he⟩ := exists_spelled call (hcs c mem_cons_self)
    obtain ⟨es, hes⟩ := ih fun c' hc' => hcs c' (mem_cons_of_mem _ hc')
    exact ⟨e :: es, List.Forall₂.cons he hes⟩

/-- The codes of a list in which every element stands for one. -/
theorem exists_codes (h : ∀ e ∈ es, ∃ c, IsCode c ∧ Spells call e c) :
    ∃ cs, List.Forall₂ (Spells call) es cs ∧ ∀ c ∈ cs, IsCode c := by
  induction es with
  | nil => exact ⟨[], List.Forall₂.nil, nofun⟩
  | cons e es ih =>
    obtain ⟨c, hc, he⟩ := h e mem_cons_self
    obtain ⟨cs, hes, hcs⟩ := ih fun e' he' => h e' (mem_cons_of_mem _ he')
    exact ⟨c :: cs, List.Forall₂.cons he hes, forall_mem_cons.mpr ⟨hc, hcs⟩⟩

theorem noNul_codes (hcs : ∀ c ∈ cs, IsCode c) : 0 ∉ cs.flatMap utf8CodepointToStr := by
  intro hmem
  obtain ⟨c, hc, hzero⟩ := mem_flatMap.mp hmem
  exact noNul_utf8CodepointToStr (hcs c hc) hzero

end Spelled

section Names

variable {charset : Charset} {name : CString} {chars : List Char}

/-- The code points of a name in UTF-8 spell its bytes, and none of them is 0. -/
theorem nameBytes_codes (h : name.bytes = nameBytes chars) :
    name.bytes = (chars.map code).flatMap utf8CodepointToStr ∧ ∀ c ∈ chars.map code, IsCode c := by
  have hflat : (chars.map code).flatMap utf8CodepointToStr = nameBytes chars := by
    rw [nameBytes, flatMap_map]
    exact congrArg (fun f : Char → List UInt8 => chars.flatMap f) (funext utf8CodepointToStr_char)
  refine ⟨h.trans hflat.symm, ?_⟩
  intro c hc
  obtain ⟨ch, hch, rfl⟩ := mem_map.mp hc
  have hlt := toNat_char_lt ch
  refine ⟨?_, by simp only [code]; omega⟩
  by_contra hzero
  have hch0 : ch.toNat = 0 := by
    simp only [code] at hzero
    omega
  apply name.noNul
  rw [h, nameBytes]
  apply mem_flatMap.mpr
  refine ⟨ch, hch, ?_⟩
  rw [← utf8CodepointToStr_char, hch0]
  decide

end Names

/-- A list of codes, or of characters, comes back from the atom that has been made of it; an atom
whose name is UTF-8 comes back from its list, unless its buffer needs more than 2^30 bytes, where
`LATIN_1` allows the characters; and no list makes the loop write outside of the buffer. -/
theorem atomToList_roundTrip (call : CallType) (charset : Charset) (x y : Nat) :
    (∀ (es : List Term) (name : CString), (∀ e ∈ es, ∃ c, IsCode c ∧ Spells call e c) →
      atomToList call charset (.ref x) (.ofList es) = .ok (.bindString name) →
      atomToList call charset (.string name) (.ref y) = .ok (.unify (.ofList es))) ∧
    (∀ (name : CString) (chars : List Char), name.bytes = nameBytes chars →
      (charset = .latin1 → ∀ ch ∈ chars, ch.toNat ≤ 255) →
      ∃ list, atomToList call charset (.string name) (.ref y) = .ok (.unify list) ∧
        (atomToList call charset (.ref x) list = .ok (.bindString name) ∨
          2 ^ 30 ≤ name.bytes.length + 3 ∧
            atomToList call charset (.ref x) list = .error .memoryError)) ∧
    (∀ term list : Term, atomToList call charset term list ≠ .error .outside) := by
  refine ⟨?_, ?_, ?_⟩
  · intro es name hes hbuild
    obtain ⟨cs, hspell, hcs⟩ := exists_codes hes
    have hbuilds := buildName_spelled charset hspell hcs NameBuffer.initial_open
    rw [atomToList] at hbuild
    cases hb : buildName call charset (.ofList es) .initial with
    | error e =>
      rw [hb] at hbuild
      cases hbuild
    | ok b =>
      rw [hb] at hbuild hbuilds
      obtain rfl : stringFind b.text = name := by
        simpa only [bind, Except.bind, pure, Except.pure, Except.ok.injEq,
          Outcome.bindString.injEq] using hbuild
      have hbytes : (stringFind b.text).bytes = cs.flatMap utf8CodepointToStr := by
        rw [show b.text = _ from hbuilds]
        exact stringFind_bytes (noNul_codes hcs) []
      rw [atomToList, hbytes, elementsFrom_spelled hspell hcs _ (Nat.le_refl _)]
  · intro name chars hname hlatin
    obtain ⟨hbytes, hcs⟩ := nameBytes_codes hname
    obtain ⟨es, hspell⟩ := exists_spelled_list call hcs
    refine ⟨.ofList es, ?_, ?_⟩
    · rw [atomToList, hbytes, elementsFrom_spelled hspell hcs _ (Nat.le_refl _)]
    · have hbuilds := buildName_spelled charset hspell hcs NameBuffer.initial_open
      rw [atomToList]
      cases hb : buildName call charset (.ofList es) .initial with
      | ok b =>
        rw [hb] at hbuilds
        left
        have hfound : stringFind b.text = name := by
          apply cstring_eq
          rw [show b.text = _ from hbuilds, hbytes]
          exact stringFind_bytes (noNul_codes hcs) []
        simp only [bind, Except.bind, pure, Except.pure, hfound]
      | error e =>
        rw [hb] at hbuilds
        rcases hbuilds with ⟨rfl, hlarge⟩ | ⟨hcharset, c, hmem, hgt⟩
        · right
          rw [← hbytes] at hlarge
          refine ⟨?_, rfl⟩
          simpa [NameBuffer.initial] using hlarge
        · obtain ⟨ch, hch, rfl⟩ := mem_map.mp hmem
          have := hlatin hcharset ch hch
          simp only [code] at hgt
          omega
  · intro term list
    cases term with
    | ref a =>
      have hne := buildName_ne_outside call charset list
        NameBuffer.initial_open
      rw [atomToList]
      cases hb : buildName call charset list .initial with
      | error e =>
        rw [hb] at hne
        simpa only [bind, Except.bind, ne_eq, Except.error.injEq] using hne
      | ok b => nofun
    | attv a | string name | int i | list head tail | cs psc args => nofun

theorem atomToList_roundTrip_letter :
    atomToList .atomCodes .utf8 (.string ⟨[195, 164], by decide⟩) (.ref 2) =
      .ok (.unify (.ofList [.int 228])) :=
  (atomToList_roundTrip .atomCodes .utf8 1 2).1 [.int 228] ⟨[195, 164], by decide⟩
    (forall_mem_singleton.mpr ⟨228, ⟨by decide, by decide⟩, rfl⟩) rfl

/-- The name of the Euro sign gives its code, of which no atom is made under `LATIN_1`. -/
theorem euro_sign_not_rebuilt :
    atomToList .atomCodes .latin1 (.string ⟨[0xe2, 0x82, 0xac], by decide⟩) (.ref 2) =
        .ok (.unify (.ofList [.int 0x20ac])) ∧
      atomToList .atomCodes .latin1 (.ref 1) (.ofList [.int 0x20ac]) =
        .error (.representationError "character_code" "(Non-LATIN_1 Character)"
          "atom_codes/2" 2) := by
  decide +kernel

end XSBEngine.Builtins
