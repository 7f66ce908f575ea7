import Mathlib

/-!
# Rectified path names

`rectify_pathname`, `XSB/emu/pathname_xsb.c:361–481`, of paths that the expansion of tildes and the
normalization of slashes in front of it leave as they are.
-/

namespace XSBEngine.Builtins.Pathname

open List

abbrev dot : List Char := ['.']

abbrev dotDot : List Char := ['.', '.']

theorem length_dropWhile_lt (p : Char → Bool) (rest : List Char) :
    (rest.dropWhile p).length < rest.length + 1 :=
  Nat.lt_succ_of_le (dropWhile_suffix p).sublist.length_le

/-- The `switch` on a name and the copy behind it. `names` are the first `nameidx` names of the
array, the last one first. -/
def push (atStart : Bool) (names : List (List Char)) (name : List Char) : List (List Char) :=
  if name = dot ∧ atStart = false then names
  else if name = dotDot then
    match names with
    | [] => [dotDot]
    | previous :: below =>
      -- discard .. and the previous file name
      if previous = dotDot then dotDot :: previous :: below else below
  else name :: names

/-- The loop along the path. That there are too many names is only tested where one has been added,
and elsewhere there are not more than before. -/
def rectifyLoop (atStart : Bool) (names : List (List Char)) : List Char → Option (List (List Char))
  | [] => some names
  | c :: rest =>
    -- skip slashes
    if c = '/' then rectifyLoop false names rest
    else
      let names := push atStart names (c :: rest.takeWhile (· ≠ '/'))
      if names.length ≥ 256 then none else rectifyLoop false names (rest.dropWhile (· ≠ '/'))
termination_by path => path.length
decreasing_by
  · simp
  · exact length_dropWhile_lt _ rest

/-- The names with slashes between them. -/
def joinNames : List (List Char) → List Char
  | [] => []
  | [name] => name
  | name :: names => name ++ '/' :: joinNames names

/-- `outpath`. There is no trailing slash if there are no names. -/
def buildPath (leading trailing : Bool) (names : List (List Char)) : List Char :=
  (if leading then ['/'] else []) ++
    (joinNames names ++ if trailing && !names.isEmpty then ['/'] else [])

/-- `rectify_pathname`, with no result where it aborts. -/
def rectifyPathname (path : List Char) : Option (List Char) :=
  (rectifyLoop true [] path).map fun names =>
    buildPath (path.head? == some '/') (path.getLast? == some '/') names.reverse

/-! ### What paths mean -/

/-- The names between slashes. -/
def components : List Char → List (List Char)
  | [] => []
  | c :: rest =>
    if c = '/' then components rest
    else (c :: rest.takeWhile (· ≠ '/')) :: components (rest.dropWhile (· ≠ '/'))
termination_by path => path.length
decreasing_by
  · simp
  · exact length_dropWhile_lt _ rest

/-- One name from a directory, which is given by its names, the last one first. -/
def walk (dir : List (List Char)) (name : List Char) : List (List Char) :=
  if name = dot then dir else if name = dotDot then dir.tail else name :: dir

/-- Where a path leads. -/
def resolve (start : List (List Char)) (path : List Char) : List (List Char) :=
  (components path).foldl walk (if path.head? = some '/' then [] else start)

/-- What is expected of the result. -/
structure Rectified (path out : List Char) : Prop where
  resolve : ∀ start, resolve start out = resolve start path
  dots : dot ∉ (components out).tail
  dotDots : (components out).IsChain fun a b => b = dotDot → a = dotDot
  slashes : out.IsChain fun a b => ¬ (a = '/' ∧ b = '/')
  trailing : path.getLast? = some '/' → out.getLast? = some '/'
  again : rectifyPathname out = some out

/-- The paths that fit the limits, without tilde and backslash. -/
structure Fits (path : List Char) : Prop where
  length : path.length < 1024
  names : (components path).length < 256
  filenames : ∀ name ∈ components path, name.length < 255
  plain : '~' ∉ path ∧ '\\' ∉ path

/-- How far below the directory that is `n` names down some names lead, if they do not climb out of
it on the way. -/
def depth : Nat → List (List Char) → Option Nat
  | n, [] => some n
  | n, name :: names =>
    if name = dot then depth n names
    else if name = dotDot then if n = 0 then none else depth (n - 1) names
    else depth (n + 1) names

/-- A path beginning with `.` does not climb above where it starts, and another relative path with
a slash at its end does not lead back to where it starts. -/
def Kept (path : List Char) : Prop :=
  path.head? ≠ some '/' →
    if (components path).head? = some dot then depth 0 (components path).tail ≠ none
    else path.getLast? = some '/' → depth 0 (components path) ≠ some 0

/-! ### The names that are left -/

variable {path rest name : List Char} {names ord ord' cs : List (List Char)} {n k : Nat}

theorem length_push_le (names : List (List Char)) (name : List Char) :
    (push false names name).length ≤ names.length + 1 := by
  unfold push
  split
  · omega
  · split
    · cases names with
      | nil => exact Nat.le_refl _
      | cons previous below =>
        show (if previous = dotDot then _ else _ : List (List Char)).length ≤ _
        split
        · exact Nat.le_refl _
        · simp only [length_cons]
          omega
    · exact Nat.le_refl _

theorem length_foldl_push_le (names cs : List (List Char)) :
    (cs.foldl (push false) names).length ≤ names.length + cs.length := by
  induction cs generalizing names with
  | nil => exact Nat.le_refl _
  | cons c cs ih =>
    have hle := ih (push false names c)
    have hpush := length_push_le names c
    rw [foldl_cons, length_cons]
    omega

theorem rectifyLoop_eq (path : List Char) (names : List (List Char))
    (hlimit : names.length + (components path).length < 256) :
    rectifyLoop false names path = some ((components path).foldl (push false) names) := by
  induction hn : path.length using Nat.strongRecOn generalizing path names with
  | ind n ih =>
    subst hn
    cases path with
    | nil => rw [rectifyLoop, components, foldl_nil]
    | cons c rest =>
      rw [rectifyLoop, components]
      rw [components] at hlimit
      split
      next hc =>
        rw [if_pos hc] at hlimit
        exact ih _ (Nat.lt_succ_self _) _ _ hlimit rfl
      next hc =>
        rw [if_neg hc, length_cons] at hlimit
        have hle := length_push_le names (c :: rest.takeWhile (· ≠ '/'))
        rw [foldl_cons, if_neg (by omega)]
        exact ih _ (length_dropWhile_lt (· ≠ '/') rest) _ _ (by omega) rfl

/-- A path that begins with `.` keeps it as the first name. -/
theorem rectifyPathname_eq (hlimit : (components path).length < 256) :
    rectifyPathname path = some (buildPath (path.head? == some '/') (path.getLast? == some '/')
      (if path.head? ≠ some '/' ∧ (components path).head? = some dot then
        (components path).tail.foldl (push false) [dot]
      else (components path).foldl (push false) []).reverse) := by
  rw [rectifyPathname]
  cases path with
  | nil => simp [rectifyLoop, components]
  | cons c rest =>
    rw [rectifyLoop]
    split
    next hc =>
      rw [components, if_pos hc] at hlimit
      rw [rectifyLoop_eq rest [] (by simpa using hlimit)]
      simp [components, hc]
    next hc =>
      rw [components, if_neg hc, length_cons] at hlimit
      have hone : (push true [] (c :: rest.takeWhile (· ≠ '/'))).length ≤ 1 := by
        unfold push
        split
        · exact Nat.zero_le _
        · split <;> exact Nat.le_refl _
      rw [if_neg (by omega), rectifyLoop_eq _ _ (by omega), components, if_neg hc]
      have hhead : (c :: rest).head? ≠ some '/' := fun h => hc (Option.some.inj h)
      rw [head?_cons, tail_cons, foldl_cons, Option.map_some]
      generalize c :: rest.takeWhile (· ≠ '/') = name
      by_cases hdot : name = dot
      · rw [if_pos ⟨hhead, congrArg some hdot⟩, hdot]
        rfl
      · rw [if_neg fun h => hdot (Option.some.inj h.2)]
        simp only [push, hdot, false_and]

/-- Names of files and directories. -/
def Ordinary (ord : List (List Char)) : Prop := ∀ name ∈ ord, name ≠ dot ∧ name ≠ dotDot

theorem push_ordinary (h : name ≠ dot ∧ name ≠ dotDot) (names : List (List Char)) :
    push false names name = name :: names := by
  simp [push, h.1, h.2]

theorem walk_ordinary (h : name ≠ dot ∧ name ≠ dotDot) (dir : List (List Char)) :
    walk dir name = name :: dir := by
  rw [walk, if_neg h.1, if_neg h.2]

theorem foldl_ordinary {f : List (List Char) → List Char → List (List Char)}
    (hf : ∀ name, name ≠ dot ∧ name ≠ dotDot → ∀ names, f names name = name :: names)
    (hord : Ordinary ord) (below : List (List Char)) :
    ord.reverse.foldl f below = ord ++ below := by
  induction ord with
  | nil => rfl
  | cons name ord ih =>
    obtain ⟨hname, hord⟩ := forall_mem_cons.mp hord
    rw [reverse_cons, foldl_append, ih hord, foldl_cons, hf name hname]
    rfl

theorem foldl_push_replicate (k : Nat) :
    (replicate k dotDot).foldl (push false) [] = replicate k dotDot := by
  induction k with
  | zero => rfl
  | succ k ih =>
    rw [replicate_succ', foldl_append, ih, ← replicate_succ', replicate_succ]
    cases k <;> rfl

/-- Some names either do not climb out of the directory that is `ord` down, and have the same effect
on the array of names and on directories, or there is one that climbs out. -/
theorem depth_cases (hord : Ordinary ord) (cs : List (List Char)) :
    (∃ ord', depth ord.length cs = some ord'.length ∧ Ordinary ord' ∧
      (∀ below, cs.foldl (push false) (ord ++ below) = ord' ++ below) ∧
      ∀ start, cs.foldl walk (ord ++ start) = ord' ++ start) ∨
    depth ord.length cs = none ∧ ∃ cs' : List (List Char), cs'.length < cs.length ∧
      (∀ below, cs.foldl (push false) (ord ++ below) =
        cs'.foldl (push false) (push false below dotDot)) ∧
      ∀ start, cs.foldl walk (ord ++ start) = cs'.foldl walk start.tail := by
  induction cs generalizing ord with
  | nil => exact .inl ⟨ord, rfl, hord, fun _ => rfl, fun _ => rfl⟩
  | cons c cs ih =>
    simp only [depth, foldl_cons]
    by_cases hdot : c = dot
    · rcases ih hord with ⟨ord', hdepth, hcase⟩ | ⟨hdepth, cs', hlt, hcase⟩
      · exact .inl ⟨ord', by rw [if_pos hdot, hdepth], by simpa [hdot, push, walk] using hcase⟩
      · exact .inr ⟨by rw [if_pos hdot, hdepth], cs', Nat.lt_succ_of_lt hlt,
          by simpa [hdot, push, walk] using hcase⟩
    · rw [if_neg hdot]
      by_cases hup : c = dotDot
      · rw [if_pos hup, hup]
        cases ord with
        | nil => exact .inr ⟨rfl, cs, Nat.lt_succ_self _, fun _ => rfl, fun _ => rfl⟩
        | cons previous ord =>
          have hprevious := hord previous mem_cons_self
          have hpop : ∀ below, push false (previous :: ord ++ below) dotDot = ord ++ below := by
            intro below
            simp [push, hprevious.2]
          have hwalk : ∀ start, walk (previous :: ord ++ start) dotDot = ord ++ start :=
            fun _ => rfl
          simp only [hpop, hwalk, length_cons, Nat.add_one_ne_zero, if_false, Nat.add_sub_cancel]
          rcases ih fun x hx => hord x (mem_cons_of_mem _ hx) with h | ⟨hdepth, cs', hlt, hcase⟩
          · exact .inl h
          · exact .inr ⟨hdepth, cs', Nat.lt_succ_of_lt hlt, hcase⟩
      · rw [if_neg hup]
        simp only [push_ordinary ⟨hdot, hup⟩, walk_ordinary ⟨hdot, hup⟩]
        rcases @ih (c :: ord) (forall_mem_cons.mpr ⟨⟨hdot, hup⟩, hord⟩) with
          h | ⟨hdepth, cs', hlt, hcase⟩
        · exact .inl h
        · exact .inr ⟨hdepth, cs', Nat.lt_succ_of_lt hlt, hcase⟩

/-- The array of names has the leading `..`s in front, and these are the directories that are left
behind. -/
theorem foldl_push_eq (hord : Ordinary ord) (k : Nat) (cs : List (List Char)) :
    ∃ ord' k', k ≤ k' ∧ Ordinary ord' ∧
      cs.foldl (push false) (ord ++ replicate k dotDot) = ord' ++ replicate k' dotDot ∧
      ∀ start : List (List Char),
        cs.foldl walk (ord ++ start.drop k) = ord' ++ start.drop k' := by
  induction hn : cs.length using Nat.strongRecOn generalizing ord k cs with
  | ind n ih =>
    subst hn
    rcases depth_cases hord cs with
      ⟨ord', -, hord', hpush, hwalk⟩ | ⟨-, cs', hlt, hpush, hwalk⟩
    · exact ⟨ord', k, Nat.le_refl k, hord', hpush _, fun _ => hwalk _⟩
    · have hup : push false (replicate k dotDot) dotDot = [] ++ replicate (k + 1) dotDot := by
        cases k with
        | zero | succ k => rfl
      obtain ⟨ord', k', hle, hord', hpush', hwalk'⟩ :=
        @ih _ hlt [] (by simp [Ordinary]) (k + 1) cs' rfl
      refine ⟨ord', k', by omega, hord', by rw [hpush, hup, hpush'], fun start => ?_⟩
      rw [hwalk, tail_drop]
      exact hwalk' start

/-! ### The path of the names -/

def IsName (name : List Char) : Prop := name ≠ [] ∧ '/' ∉ name

theorem isName_of_mem (path : List Char) : ∀ name ∈ components path, IsName name := by
  induction hn : path.length using Nat.strongRecOn generalizing path with
  | ind n ih =>
    subst hn
    cases path with
    | nil => simp [components]
    | cons c rest =>
      rw [components]
      split
      next => exact ih _ (Nat.lt_succ_self _) _ rfl
      next hc =>
        refine forall_mem_cons.mpr
          ⟨⟨cons_ne_nil _ _, ?_⟩, ih _ (length_dropWhile_lt (· ≠ '/') rest) _ rfl⟩
        intro hmem
        rcases mem_cons.mp hmem with heq | hmem
        · exact hc heq.symm
        · have hall := all_takeWhile (p := (· ≠ '/')) (l := rest)
          simpa using all_eq_true.mp hall _ hmem

theorem mem_foldl_push {x : List Char} (h : x ∈ cs.foldl (push false) names) :
    x ∈ names ∨ x ∈ cs := by
  induction cs generalizing names with
  | nil => exact .inl h
  | cons c cs ih =>
    rcases ih h with hx | hx
    · have hcases : x = c ∨ x ∈ names := by
        unfold push at hx
        split at hx
        · exact .inr hx
        · split at hx
          next hup =>
            cases names with
            | nil => exact .inl ((mem_singleton.mp hx).trans hup.symm)
            | cons previous below =>
              simp only at hx
              split at hx
              · exact (mem_cons.mp hx).imp (·.trans hup.symm) id
              · exact .inr (mem_cons_of_mem _ hx)
          next => exact mem_cons.mp hx
      exact hcases.symm.imp id fun heq => mem_cons.mpr (.inl heq)
    · exact .inr (mem_cons_of_mem _ hx)

theorem components_append (h : IsName name) (hrest : ∀ c ∈ rest.head?, c = '/') :
    components (name ++ rest) = name :: components rest := by
  obtain ⟨c, name, rfl⟩ := exists_cons_of_ne_nil h.1
  have hslash := h.2
  rw [mem_cons, not_or] at hslash
  have hname : ∀ x ∈ name, decide (x ≠ '/') = true := fun x hx => by
    simpa using ne_of_mem_of_not_mem hx hslash.2
  rw [cons_append, components, if_neg fun hc => hslash.1 hc.symm,
    takeWhile_append_of_pos hname, dropWhile_append_of_pos hname]
  cases rest with
  | nil => simp
  | cons x rest =>
    obtain rfl := hrest x rfl
    simp

/-- No slash follows another one. -/
abbrev Single (path : List Char) : Prop := path.IsChain fun a b => ¬ (a = '/' ∧ b = '/')

theorem joinNames_spec (hnames : ∀ name ∈ names, IsName name) {slash : List Char}
    (hslash : slash = [] ∨ slash = ['/'] ∧ names ≠ []) :
    components (joinNames names ++ slash) = names ∧ Single (joinNames names ++ slash) ∧
      ∀ c ∈ (joinNames names ++ slash).head?, c ≠ '/' := by
  induction names with
  | nil =>
    obtain rfl : slash = [] := hslash.resolve_right fun h => h.2 rfl
    simp [joinNames, components]
  | cons name names ih =>
    obtain ⟨hname, hnames⟩ := forall_mem_cons.mp hnames
    -- what is behind the first name begins with a slash if there is something
    have hfirst : ∀ rest : List Char, components rest = names → Single rest →
        (∀ c ∈ rest.head?, c = '/') → components (name ++ rest) = name :: names ∧
          Single (name ++ rest) ∧ ∀ c ∈ (name ++ rest).head?, c ≠ '/' := by
      intro rest hrest hsingle hhead
      have hne : ∀ c ∈ name, c ≠ '/' := fun c hc heq => hname.2 (heq ▸ hc)
      refine ⟨by rw [components_append hname hhead, hrest], isChain_append.mpr ⟨?_, hsingle, ?_⟩,
        ?_⟩
      · apply Pairwise.isChain
        exact pairwise_of_forall_mem_list fun a ha _ _ heq => hne a ha heq.1
      · exact fun x hx y _ heq => hne x (mem_of_getLast? hx) heq.1
      · intro c hc
        obtain ⟨x, name, rfl⟩ := exists_cons_of_ne_nil hname.1
        obtain rfl := Option.some.inj hc
        exact hne _ mem_cons_self
    cases names with
    | nil =>
      apply hfirst slash
      · rcases hslash with rfl | ⟨rfl, -⟩ <;> simp [components]
      · rcases hslash with rfl | ⟨rfl, -⟩ <;> simp
      · rcases hslash with rfl | ⟨rfl, -⟩ <;> simp
    | cons next names =>
      obtain ⟨hcomponents, hsingle, hnext⟩ := ih hnames (hslash.imp id fun h => ⟨h.1, by simp⟩)
      have hjoin : joinNames (name :: next :: names) ++ slash =
          name ++ '/' :: (joinNames (next :: names) ++ slash) := by
        rw [joinNames, append_assoc, cons_append]
        exact cons_ne_nil _ _
      rw [hjoin]
      apply hfirst
      · rw [components, if_pos rfl, hcomponents]
      · exact isChain_cons.mpr ⟨fun y hy heq => hnext y hy heq.2, hsingle⟩
      · simp

/-- The path of some names. -/
theorem buildPath_spec (hnames : ∀ name ∈ names, IsName name) (leading trailing : Bool) :
    components (buildPath leading trailing names) = names ∧
      Single (buildPath leading trailing names) ∧
      ((buildPath leading trailing names).head? = some '/' ↔ leading = true) ∧
      (names ≠ [] → ((buildPath leading trailing names).getLast? = some '/' ↔
        trailing = true)) := by
  rcases eq_or_ne names [] with rfl | hne
  · cases leading <;> simp [buildPath, joinNames, components]
  · have hempty : names.isEmpty = false := by simpa using hne
    obtain ⟨hcomponents, hsingle, hhead⟩ := joinNames_spec hnames
      (show (if trailing then ['/'] else []) = [] ∨ _ by cases trailing <;> simp [hne])
    have hlast := (isChain_append.mp (joinNames_spec hnames (.inr ⟨rfl, hne⟩)).2.1).2.2
    have hjoin : joinNames names ≠ [] := by
      intro hnil
      have hspec := (joinNames_spec hnames (.inl rfl)).1
      rw [hnil] at hspec
      exact hne (by simpa [components] using hspec.symm)
    have hbuild : buildPath leading trailing names = (if leading then ['/'] else []) ++
        (joinNames names ++ if trailing then ['/'] else []) := by
      rw [buildPath, hempty, Bool.not_false, Bool.and_true]
    rw [hbuild]
    refine ⟨?_, ?_, ?_, fun _ => ?_⟩
    · cases leading
      · exact hcomponents
      · simpa [components] using hcomponents
    · cases leading
      · exact hsingle
      · exact isChain_cons.mpr ⟨fun y hy heq => hhead y hy heq.2, hsingle⟩
    · cases leading
      · simpa using fun h => hhead _ h rfl
      · simp
    · cases trailing
      · simp only [Bool.false_eq_true, if_false, append_nil, iff_false]
        rw [getLast?_append_of_ne_nil _ hjoin]
        exact fun h => hlast _ h '/' rfl ⟨rfl, rfl⟩
      · simp

/-- The names in the array, of which the last one is the first, are those of a path that is
rectified already. -/
theorem rectified_of_names {L : List (List Char)} (hlimit : L.length < 256)
    (hnames : ∀ name ∈ L, IsName name) (hord : Ordinary ord)
    (hL : path.head? ≠ some '/' ∧ L = ord ++ [dot] ∨ L = ord ++ replicate k dotDot)
    (hresolve : ∀ start, L.reverse.foldl walk start = (components path).foldl walk start)
    (htrailing : path.getLast? = some '/' → L = [] → path.head? = some '/') :
    Rectified path (buildPath (path.head? == some '/') (path.getLast? == some '/') L.reverse) := by
  obtain ⟨hcomponents, hsingle, hhead, hlast⟩ := buildPath_spec
    (show ∀ name ∈ L.reverse, IsName name by simpa) (path.head? == some '/')
    (path.getLast? == some '/')
  generalize hout : buildPath _ _ L.reverse = out at *
  rw [beq_iff_eq] at hhead hlast
  have hleading : (out.head? == some '/') = (path.head? == some '/') := by
    rw [Bool.eq_iff_iff, beq_iff_eq, beq_iff_eq, hhead]
  have hnodots : dot ∉ ord.reverse := fun h => (hord dot (mem_reverse.mp h)).1 rfl
  have hchain : ord.reverse.IsChain fun a b => b = dotDot → a = dotDot :=
    (pairwise_of_forall_mem_list fun a _ b hb heq =>
      absurd heq (hord b (mem_reverse.mp hb)).2).isChain
  refine ⟨fun start => ?_, ?_, ?_, hsingle, fun h => ?_, ?_⟩
  · simp only [resolve, hcomponents, hresolve, hhead]
  · rw [hcomponents]
    rcases hL with ⟨-, rfl⟩ | rfl
    · simpa using hnodots
    · intro h
      rcases mem_append.mp (mem_reverse.mp (mem_of_mem_tail h)) with hmem | hmem
      · exact (hord dot hmem).1 rfl
      · cases eq_of_mem_replicate hmem
  · rw [hcomponents]
    have hnext : ∀ front : List (List Char), ∀ a ∈ front.getLast?, ∀ b ∈ ord.reverse.head?,
        b = dotDot → a = dotDot := fun _ a _ b hb heq =>
      absurd heq (hord b (mem_reverse.mp (mem_of_mem_head? hb))).2
    rcases hL with ⟨-, rfl⟩ | rfl
    · rw [reverse_append]
      exact isChain_append.mpr ⟨isChain_singleton _, hchain, hnext _⟩
    · rw [reverse_append, reverse_replicate]
      refine isChain_append.mpr ⟨?_, hchain, hnext _⟩
      apply Pairwise.isChain
      exact pairwise_of_forall_mem_list fun a ha _ _ _ => eq_of_mem_replicate ha
  · by_cases hnil : L = []
    · simp [← hout, hnil, htrailing h hnil, buildPath, joinNames]
    · exact (hlast (by simpa)).mpr h
  · rw [rectifyPathname_eq (by rwa [hcomponents, length_reverse]), hcomponents, hleading]
    have hagain : (if out.head? ≠ some '/' ∧ L.reverse.head? = some dot then
        L.reverse.tail.foldl (push false) [dot] else L.reverse.foldl (push false) []) = L := by
      have hpush := foldl_ordinary (fun _ h => push_ordinary h) hord
      rcases hL with ⟨hrelative, rfl⟩ | rfl
      · rw [if_pos ⟨fun h => hrelative (hhead.mp h), by simp⟩]
        simpa using hpush [dot]
      · rw [if_neg, reverse_append, reverse_replicate, foldl_append, hpush]
        · rw [foldl_push_replicate]
        · rintro ⟨-, h⟩
          rcases mem_append.mp (mem_reverse.mp (mem_of_mem_head? h)) with hmem | hmem
          · exact (hord dot hmem).1 rfl
          · cases eq_of_mem_replicate hmem
    rw [hagain]
    by_cases hnil : L = []
    · simp [← hout, hnil, buildPath]
    · have hsame : (out.getLast? == some '/') = (path.getLast? == some '/') := by
        rw [Bool.eq_iff_iff, beq_iff_eq, beq_iff_eq, hlast (by simpa)]
      rw [hsame, hout]

theorem foldl_walk_reverse (hord : Ordinary ord) (k : Nat) (start : List (List Char)) :
    (ord ++ replicate k dotDot).reverse.foldl walk start = ord ++ start.drop k := by
  rw [reverse_append, reverse_replicate, foldl_append,
    foldl_ordinary (fun _ h => walk_ordinary h) hord]
  congr 1
  induction k generalizing start with
  | zero => rfl
  | succ k ih =>
    rw [replicate_succ, foldl_cons, ih]
    show drop k start.tail = _
    rw [← drop_one, drop_drop, Nat.add_comm]

/-- The path is rectified correctly if and only if it is kept. -/
theorem rectifyPathname_iff (path : List Char) (hfits : Fits path) :
    (∃ out, rectifyPathname path = some out ∧ Rectified path out) ↔ Kept path := by
  have hempty : Ordinary [] := by simp [Ordinary]
  have hname : ∀ cs names, cs ⊆ components path → (∀ name ∈ names, IsName name) →
      ∀ name ∈ (cs.foldl (push false) names).reverse, IsName name := by
    intro cs names hcs hnames name hmem
    rcases mem_foldl_push (mem_reverse.mp hmem) with h | h
    · exact hnames name h
    · exact isName_of_mem path name (hcs h)
  have hlength := hfits.names
  rw [rectifyPathname_eq hlength]
  simp only [Option.some.injEq, exists_eq_left']
  by_cases hdot : path.head? ≠ some '/' ∧ (components path).head? = some dot
  · obtain ⟨cs, hcs⟩ : ∃ cs, components path = dot :: cs := by
      cases h : components path with
      | nil => simp [h] at hdot
      | cons c cs => exact ⟨cs, by simpa [h] using hdot.2⟩
    have hnames := hname cs [dot] (by simp [hcs]) (by simp [IsName])
    have hle := length_foldl_push_le [dot] cs
    rw [hcs, length_cons] at hlength
    rw [length_singleton] at hle
    rw [if_pos hdot, Kept, if_pos hdot.2, hcs, tail_cons]
    rcases depth_cases hempty cs with
      ⟨ord', hdepth, hord', hpush, hwalk⟩ | ⟨hdepth, cs', -, hpush, hwalk⟩
    · have hpush : cs.foldl (push false) [dot] = ord' ++ [dot] := hpush [dot]
      have hdepth : depth 0 cs ≠ none := hdepth ▸ Option.some_ne_none _
      refine iff_of_true ?_ fun _ => hdepth
      refine rectified_of_names (k := 0) (by omega) (by simpa using hnames) hord'
        (.inl ⟨hdot.1, hpush⟩) (fun start => ?_) fun _ hnil => ?_
      · rw [hpush, hcs, reverse_append]
        exact (foldl_ordinary (fun _ h => walk_ordinary h) hord' _).trans (hwalk start).symm
      · simp [hpush] at hnil
    · have hdepth : depth 0 cs = none := hdepth
      refine iff_of_false (fun hrect => ?_) fun hkept => hkept hdot.1 hdepth
      obtain ⟨ord', k', -, hord', hpush', hwalk'⟩ := foldl_push_eq hempty 0 cs'
      have hL : cs.foldl (push false) [dot] = ord' ++ replicate k' dotDot :=
        (hpush [dot]).trans hpush'
      obtain ⟨hcomponents, -, hhead, -⟩ := buildPath_spec hnames (path.head? == some '/')
        (path.getLast? == some '/')
      -- one directory too low
      have hsame := congrArg length (hrect.resolve (replicate (k' + 1) dot))
      rw [resolve, resolve, hcomponents, if_neg (by simpa [hhead] using hdot.1), if_neg hdot.1, hL,
        foldl_walk_reverse hord', hcs, foldl_cons] at hsame
      have hleft : cs.foldl walk (replicate (k' + 1) dot) =
          ord' ++ (replicate (k' + 1) dot).tail.drop k' := (hwalk _).trans (hwalk' _)
      rw [show walk (replicate (k' + 1) dot) dot = replicate (k' + 1) dot from rfl, hleft] at hsame
      simp at hsame
  · rw [if_neg hdot]
    obtain ⟨ord', k', -, hord', hpush, hwalk⟩ := foldl_push_eq hempty 0 (components path)
    have hL : (components path).foldl (push false) [] = ord' ++ replicate k' dotDot := hpush
    have hnames := hname (components path) [] (Subset.refl _) (by simp)
    have hle := length_foldl_push_le [] (components path)
    rw [length_nil] at hle
    -- the array is empty where the path leads back
    have hnil : (components path).foldl (push false) [] = [] ↔
      depth 0 (components path) = some 0 := by
      rcases depth_cases hempty (components path) with
        ⟨ord'', hdepth, -, hpush', -⟩ | ⟨hdepth, cs', -, hpush', -⟩
      · have hend : (components path).foldl (push false) [] = ord'' := by simpa using hpush' []
        have hdepth : depth 0 (components path) = some ord''.length := hdepth
        rw [hend, hdepth, Option.some.injEq, length_eq_zero_iff]
      · obtain ⟨ord'', k'', hk, -, hpush'', -⟩ := foldl_push_eq hempty 1 cs'
        have hend : (components path).foldl (push false) [] = ord'' ++ replicate k'' dotDot :=
          (hpush' []).trans hpush''
        have hdepth : depth 0 (components path) = none := hdepth
        rw [hend, hdepth]
        simp only [append_eq_nil_iff, replicate_eq_nil_iff, reduceCtorEq, iff_false, not_and]
        omega
    constructor
    · intro hrect hrelative
      rw [if_neg fun h => hdot ⟨hrelative, h⟩]
      intro htrailing hdepth
      have hend := hrect.trailing htrailing
      simp [hnil.mpr hdepth, buildPath, joinNames, hrelative] at hend
    · intro hkept
      refine rectified_of_names (by omega) (by simpa using hnames) hord' (.inr hL) (fun start => ?_)
        fun htrailing hend => ?_
      · rw [hL, foldl_walk_reverse hord']
        exact (hwalk start).symm
      · by_contra hrelative
        have hcase := hkept hrelative
        rw [if_neg fun h => hdot ⟨hrelative, h⟩] at hcase
        exact hcase htrailing (hnil.mp hend)

theorem rectifyPathname_up : ∃ out, rectifyPathname ['a', '/'] = some out ∧
    Rectified ['a', '/'] out := by
  have hcomponents : components ['a', '/'] = [['a']] := by simp [components]
  refine (rectifyPathname_iff _ ⟨by decide, ?_, ?_, by decide⟩).mpr fun _ => ?_
  · rw [hcomponents]
    decide
  · rw [hcomponents]
    decide
  · rw [hcomponents]
    decide

/-- The parent of a directory becomes the directory itself. -/
theorem rectifyPathname_dot_up : ¬ ∃ out, rectifyPathname ['.', '/', '.', '.'] = some out ∧
    Rectified ['.', '/', '.', '.'] out := by
  rintro ⟨out, hout, hrect⟩
  have hnil : rectifyPathname ['.', '/', '.', '.'] = some [] := by
    simp [rectifyPathname, rectifyLoop, push, buildPath, joinNames]
  obtain rfl := Option.some.inj (hnil.symm.trans hout)
  have hresolve := hrect.resolve [['a']]
  simp [resolve, components, walk] at hresolve

end XSBEngine.Builtins.Pathname
