import Mathlib.Data.List.TakeWhile
import Mathlib.Data.Nat.Notation
import Mathlib.Tactic.Common

/-! # The search for a loaded DLL

`myldrFindModule` for `CLASS_GLOBAL`, with the DLL fixes enabled. `ldrUCaseString` is the kernel's
and is known by what it makes of one character. -/

set_option autoImplicit false

namespace Odin32.FindModule

def errorFileNotFound : ℕ := 2

def dot : UInt8 := 0x2e

def dotDll : List UInt8 := [0x2e, 0x44, 0x4c, 0x4c]

/-- A module of the global list. -/
structure Mte where
  mte_modname : List UInt8
  /-- The first resident name; `none` where the pointer is bad. -/
  smte_restab : Option (List UInt8)

/-- `!memcmp(pv1, pv2, cch)`. -/
def memSame (cch : ℕ) (pv1 pv2 : List UInt8) : Bool := decide (pv1.take cch = pv2.take cch)

/-- The name and the extension of a request, by their lengths. -/
structure Parts where
  cchName : ℕ
  cchExt : ℕ
  fDllExt : Bool
  cchName8 : ℕ
deriving DecidableEq

/-- What the walk from the end of the filename back to a dot leaves. -/
def walkBack (pachFilename : List UInt8) : List UInt8 :=
  (pachFilename.reverse.dropWhile fun c => c ≠ dot).reverse

def parts (pachFilename : List UInt8) : Parts :=
  let cchFilename := pachFilename.length
  if walkBack pachFilename = [] then ⟨cchFilename, 3, true, min 8 cchFilename⟩
  else
    let cchName := (walkBack pachFilename).length - 1
    let cchExt := cchFilename - cchName - 1
    let pachExt := pachFilename.drop cchName
    let fDllExt := (cchExt = 3 && memSame 4 pachExt dotDll) ||
      (decide (cchName < 8) && memSame (min 3 cchExt) pachExt dotDll)
    ⟨cchName, cchExt, fDllExt, min 8 (if fDllExt then cchName else cchFilename)⟩

variable (upper : UInt8 → UInt8)

/-- `!mymemicmp(pv1, pv2, cch)`; what it leaves of `pv1` is the same name in another case. -/
def mymemicmp (pv1 pv2 : List UInt8) (cch : ℕ) : Bool :=
  memSame cch pv1 pv2 || memSame cch (pv1.map upper) pv2

def fFound (p : Parts) (pachFilename : List UInt8) (pmte : Mte) : Bool :=
  let modname := pmte.mte_modname
  if p.cchName ≤ 8 ∧ p.fDllExt then
    memSame p.cchName modname pachFilename &&
      (p.cchName = 8 || modname.getD p.cchName 0 = 0 ||
        memSame (min 5 (8 - p.cchName)) (modname.drop p.cchName) (dotDll ++ [0]))
  else
    memSame p.cchName8 modname pachFilename &&
      let pachResName := pmte.smte_restab.getD []
      if p.fDllExt then
        (pachResName.length = p.cchName ||
          (pachResName.length = p.cchName + 4 &&
            mymemicmp upper (pachResName.drop p.cchName) dotDll 4)) &&
          mymemicmp upper pachResName pachFilename p.cchName
      else
        pachResName.length = p.cchName + p.cchExt + 1 &&
          mymemicmp upper pachResName pachFilename (p.cchName + p.cchExt + 1)

/-- The code that is returned, and the place of the module in the list. -/
def myldrFindModule (mods : List Mte) (pachFilename : List UInt8) : ℕ × Option ℕ :=
  if pachFilename.length = 0 then (errorFileNotFound, none)
  else (0, mods.findIdx? (fFound upper (parts pachFilename) pachFilename))

/-! ## What it is for -/

/-- The upper case of names. -/
structure UCase : Prop where
  nonzero : ∀ c, upper c = 0 → c = 0
  dll : dotDll.map upper = dotDll

/-- The internal name. -/
def Mte.name (pmte : Mte) : List UInt8 := pmte.smte_restab.getD []

/-- The internal name in upper case. -/
def Mte.uname (pmte : Mte) : List UInt8 := pmte.name.map upper

/-- The first eight characters of a name, padded with zeros. -/
def modnameOf (name : List UInt8) : List UInt8 := (name ++ List.replicate 8 0).take 8

/-- What the loader keeps of the internal name. -/
structure Mte.Ok (pmte : Mte) : Prop where
  named : 0 ∉ pmte.name
  modname : pmte.mte_modname = modnameOf (pmte.uname upper)

/-- A module with the name `n` or `n.DLL`, in any case. -/
def Mte.Is (pmte : Mte) (n : List UInt8) : Prop :=
  pmte.uname upper = n ∨ pmte.uname upper = n ++ dotDll

instance (pmte : Mte) (n : List UInt8) : Decidable (pmte.Is upper n) :=
  inferInstanceAs (Decidable (_ ∨ _))

/-- An upper-case request for `n`, without a dot or with the extension `.DLL`. -/
structure Request (pachFilename n : List UInt8) : Prop where
  nonempty : pachFilename ≠ []
  name : 0 ∉ pachFilename
  upperCase : pachFilename.map upper = pachFilename
  ext : (dot ∉ pachFilename ∧ n = pachFilename) ∨ pachFilename = n ++ dotDll

/-- The search for `n` finds a module of that name, and finds one if there is one. -/
structure Right (mods : List Mte) (n : List UInt8) (found : Option ℕ) : Prop where
  same : ∀ i, found = some i → ∃ pmte : Mte, mods[i]? = some pmte ∧ pmte.Is upper n
  all : found = none → ∀ pmte ∈ mods, ¬ pmte.Is upper n

/-- A module that differs from a short `n.DLL` only behind the eighth character of its name, or by
the name itself. -/
def Mte.Truncated (pmte : Mte) (n : List UInt8) : Prop :=
  n.length ≤ 8 ∧ (pmte.uname upper).take 8 = (n ++ dotDll).take 8

/-- A module with another name that has the same first eight characters stands behind one of the
name. -/
def Unshadowed (mods : List Mte) (n : List UInt8) : Prop :=
  ∀ (i : ℕ) (pmte : Mte), mods[i]? = some pmte → pmte.Truncated upper n → ¬ pmte.Is upper n →
    ∃ j < i, ∃ other : Mte, mods[j]? = some other ∧ other.Is upper n

/-! ## Requests -/

theorem walkBack_no_dot {name : List UInt8} (no_dot : dot ∉ name) : walkBack name = [] := by
  have all : ∀ c ∈ name.reverse, decide (c ≠ dot) = true := by
    intro c mem
    rw [decide_eq_true_eq]
    rintro rfl
    exact no_dot (List.mem_reverse.mp mem)
  rw [walkBack, List.dropWhile_eq_nil_iff.mpr all, List.reverse_nil]

theorem walkBack_dll (n : List UInt8) : walkBack (n ++ dotDll) = n ++ [dot] := by
  have reversed : (n ++ dotDll).reverse = [0x4c, 0x4c, 0x44, dot] ++ n.reverse := by
    rw [List.reverse_append]
    rfl
  rw [walkBack, reversed]
  have dropped : (([0x4c, 0x4c, 0x44, dot] ++ n.reverse).dropWhile fun c => c ≠ dot) =
      dot :: n.reverse := by
    simp [dot]
  rw [dropped, List.reverse_cons, List.reverse_reverse]

theorem memSame_iff (cch : ℕ) (pv1 pv2 : List UInt8) :
    memSame cch pv1 pv2 = true ↔ pv1.take cch = pv2.take cch := decide_eq_true_iff

theorem Request.parts {name n : List UInt8} (request : Request upper name n) :
    ∃ cchExt, FindModule.parts name = ⟨n.length, cchExt, true, min 8 n.length⟩ := by
  rcases request.ext with ⟨no_dot, rfl⟩ | rfl
  · refine ⟨3, ?_⟩
    rw [FindModule.parts, if_pos (walkBack_no_dot no_dot)]
  · refine ⟨3, ?_⟩
    have walked := walkBack_dll n
    have dll : memSame 4 ((n ++ dotDll).drop n.length) dotDll = true := by
      rw [List.drop_left, memSame_iff]
    rw [FindModule.parts, walked, if_neg (by simp)]
    simp only [List.length_append, List.length_singleton, Nat.add_sub_cancel]
    rw [dll, show dotDll.length = 4 from rfl, show n.length + 4 - n.length - 1 = 3 by omega]
    rfl

theorem Request.takes {name n : List UInt8} (request : Request upper name n) :
    name.take n.length = n := by
  rcases request.ext with ⟨-, rfl⟩ | rfl
  · exact List.take_length
  · exact List.take_left

theorem Request.no_zero {name n : List UInt8} (request : Request upper name n) : 0 ∉ n := by
  rcases request.ext with ⟨-, rfl⟩ | rfl
  · exact request.name
  · exact fun mem => request.name (List.mem_append_left _ mem)

theorem Request.upper_name {name n : List UInt8} (request : Request upper name n) :
    n.map upper = n := by
  rw [← request.takes, List.map_take, request.upperCase]

/-! ## The truncated name -/

theorem modname_take {u t : List UInt8} (no_zero : 0 ∉ t) (short : t.length ≤ 8) :
    (modnameOf u).take t.length = t ↔ u.take t.length = t := by
  rw [modnameOf, List.take_take, Nat.min_eq_left short]
  by_cases long : t.length ≤ u.length
  · rw [List.take_append_of_le_length long]
  · constructor
    · intro eq
      exfalso
      apply no_zero
      rw [← eq, List.take_append, List.mem_append]
      right
      rw [List.take_replicate, List.mem_replicate]
      exact ⟨by omega, rfl⟩
    · intro eq
      have := congrArg List.length eq
      rw [List.length_take] at this
      omega

theorem modname_ends {u : List UInt8} (no_zero : 0 ∉ u) {k : ℕ} (lt : k < 8) (le : k ≤ u.length) :
    (modnameOf u).getD k 0 = 0 ↔ u.length = k := by
  rw [modnameOf, List.getD_eq_getElem?_getD, List.getElem?_take_of_lt lt]
  by_cases inside : k < u.length
  · rw [List.getElem?_append_left inside, List.getElem?_eq_getElem inside, Option.getD_some]
    constructor
    · intro zero
      exact absurd (zero ▸ List.getElem_mem inside) no_zero
    · omega
  · rw [List.getElem?_append_right (by omega)]
    constructor
    · omega
    · intro _
      rw [List.getElem?_replicate]
      split_ifs <;> rfl

theorem long_iff {u n : List UInt8} (long : 8 < n.length) :
    (u.take 8 = n.take 8 ∧
      (u.length = n.length ∨ u.length = n.length + 4 ∧ (u.drop n.length).take 4 = dotDll) ∧
      u.take n.length = n) ↔ u = n ∨ u = n ++ dotDll := by
  constructor
  · rintro ⟨-, len | ⟨len, ext⟩, whole⟩
    · left
      rwa [← len, List.take_length] at whole
    · right
      rw [List.take_of_length_le (by rw [List.length_drop]; omega)] at ext
      rw [← List.take_append_drop n.length u, whole, ext]
  · rintro (rfl | rfl)
    · exact ⟨rfl, .inl rfl, List.take_length⟩
    · refine ⟨List.take_append_of_le_length (by omega), .inr ⟨by simp [dotDll], ?_⟩,
        List.take_left⟩
      rw [List.drop_left]
      rfl

theorem modnameOf_take (u : List UInt8) : modnameOf (u.take 8) = modnameOf u := by
  rw [modnameOf, modnameOf]
  by_cases long : 8 ≤ u.length
  · rw [List.take_append_of_le_length long,
      List.take_append_of_le_length (by rw [List.length_take]; omega), List.take_take]
    rfl
  · rw [List.take_of_length_le (by omega : u.length ≤ 8)]

theorem modname_ext {n : List UInt8} {k : ℕ} (five : k ≤ 5) (short : k ≤ 8 - n.length) :
    ((modnameOf (n ++ dotDll)).drop n.length).take k = (dotDll ++ [0]).take k := by
  have zeros :
      n ++ dotDll ++ List.replicate 8 0 = n ++ ((dotDll ++ [0]) ++ List.replicate 7 0) := by
    rw [List.append_assoc, List.append_assoc]
    rfl
  rw [modnameOf, List.drop_take, List.take_take, Nat.min_eq_left short, zeros, List.drop_left]
  exact List.take_append_of_le_length five

theorem short_iff {u n : List UInt8} (no_zero : 0 ∉ u) (named : 0 ∉ n) (short : n.length ≤ 8) :
    ((modnameOf u).take n.length = n ∧
      (n.length = 8 ∨ (modnameOf u).getD n.length 0 = 0 ∨
        ((modnameOf u).drop n.length).take (min 5 (8 - n.length)) =
          (dotDll ++ [0]).take (min 5 (8 - n.length)))) ↔
      u = n ∨ u.take 8 = (n ++ dotDll).take 8 := by
  have dll_named : 0 ∉ n ++ dotDll := by
    rw [List.mem_append]
    rintro (mem | mem)
    · exact named mem
    · revert mem
      decide
  rw [modname_take (u := u) named short]
  by_cases eight : n.length = 8
  · have same : (n ++ dotDll).take 8 = n := by
      rw [← eight]
      exact List.take_left
    rw [same, eight]
    constructor
    · exact fun h => .inr h.1
    · rintro (rfl | whole)
      · exact ⟨by rw [← eight, List.take_length], .inl rfl⟩
      · exact ⟨whole, .inl rfl⟩
  have lt : n.length < 8 := by omega
  constructor
  · rintro ⟨whole, h | zero | ext⟩
    · exact absurd h eight
    · left
      have le : n.length ≤ u.length := by
        have := congrArg List.length whole
        rw [List.length_take] at this
        omega
      have ends := (modname_ends no_zero lt le).mp zero
      rwa [← ends, List.take_length] at whole
    · right
      have front := (modname_take (u := u) named short).mpr whole
      by_cases few : n.length ≤ 3
      · rw [show min 5 (8 - n.length) = 5 by omega] at ext
        have all : (modnameOf u).take (n.length + 5) = n ++ dotDll ++ [0] := by
          rw [List.take_add, front, ext, List.append_assoc]
          rfl
        have four : (n ++ dotDll).length = n.length + 4 := List.length_append
        have dll : (modnameOf u).take (n ++ dotDll).length = n ++ dotDll := by
          have := congrArg (List.take (n ++ dotDll).length) all
          rwa [List.take_take, Nat.min_eq_left (by omega), List.take_left] at this
        have whole' := (modname_take (u := u) dll_named (by omega)).mp dll
        have le : n.length + 4 ≤ u.length := by
          have := congrArg List.length whole'
          rw [List.length_take] at this
          omega
        have zero : (modnameOf u).getD (n.length + 4) 0 = 0 := by
          have := congrArg (fun l => l.getD (n.length + 4) 0) all
          rw [List.getD_eq_getElem?_getD, List.getElem?_take_of_lt (by omega),
            ← List.getD_eq_getElem?_getD] at this
          rw [this, List.getD_eq_getElem?_getD, List.getElem?_append_right (by omega), four,
            Nat.sub_self]
          rfl
        have ends := (modname_ends no_zero (by omega) le).mp zero
        rw [four, ← ends, List.take_length] at whole'
        rw [whole']
      · have four : min 5 (8 - n.length) = 8 - n.length := by omega
        have all : (modnameOf u).take 8 = (n ++ dotDll).take 8 := by
          have parts := @List.take_add _ (modnameOf u) n.length (8 - n.length)
          rw [four, List.take_append_of_le_length (by rw [show dotDll.length = 4 from rfl]; omega)]
            at ext
          rw [show n.length + (8 - n.length) = 8 by omega, front, ext] at parts
          rw [parts, List.take_append, List.take_of_length_le short]
        have length_8 : ((n ++ dotDll).take 8).length = 8 := by
          rw [List.length_take, List.length_append, show dotDll.length = 4 from rfl]
          omega
        have := modname_take (u := u) (t := (n ++ dotDll).take 8)
          (fun mem => dll_named (List.mem_of_mem_take mem)) length_8.le
        rw [length_8] at this
        exact this.mp all
  · rintro (rfl | front)
    · exact ⟨List.take_length, .inr (.inl ((modname_ends no_zero lt le_rfl).mpr rfl))⟩
    · have same : modnameOf u = modnameOf (n ++ dotDll) := by
        rw [← modnameOf_take, front, modnameOf_take]
      refine ⟨?_, .inr (.inr ?_)⟩
      · have := congrArg (List.take n.length) front
        rwa [List.take_take, List.take_take, Nat.min_eq_left short, List.take_left] at this
      · rw [same]
        exact modname_ext (by omega) (by omega)

section Found

variable {upper} {pmte : Mte} {name n : List UInt8}

theorem Mte.Ok.uname_named (ok : pmte.Ok upper) (case : UCase upper) : 0 ∉ pmte.uname upper := by
  intro mem
  obtain ⟨c, mem, zero⟩ := List.mem_map.mp mem
  rw [case.nonzero c zero] at mem
  exact ok.named mem

theorem mymemicmp_iff {s t : List UInt8} {cch : ℕ} (up : (t.take cch).map upper = t.take cch) :
    mymemicmp upper s t cch = true ↔ (s.map upper).take cch = t.take cch := by
  rw [mymemicmp, Bool.or_eq_true, memSame_iff, memSame_iff]
  constructor
  · rintro (same | same)
    · rw [← List.map_take, same, up]
    · exact same
  · exact .inr

theorem fFound_long (case : UCase upper) (request : Request upper name n) (ok : pmte.Ok upper)
    {cchExt cchName8 : ℕ} (long : 8 < n.length) (eight : cchName8 = 8) :
    fFound upper ⟨n.length, cchExt, true, cchName8⟩ name pmte = true ↔ pmte.Is upper n := by
  have takes := request.takes upper
  have up := request.upper_name upper
  have same_name : mymemicmp upper pmte.name name n.length = true ↔
      (pmte.uname upper).take n.length = n := by
    rw [mymemicmp_iff (by rw [takes, up]), takes]
    rfl
  have same_ext : mymemicmp upper (pmte.name.drop n.length) dotDll 4 = true ↔
      ((pmte.uname upper).drop n.length).take 4 = dotDll := by
    rw [mymemicmp_iff (by exact case.dll), List.map_drop]
    rfl
  have length_eq : pmte.name.length = (pmte.uname upper).length := (List.length_map _).symm
  have front : memSame 8 pmte.mte_modname name = true ↔
      (pmte.uname upper).take 8 = n.take 8 := by
    have eight_n : (n.take 8).length = 8 := by
      rw [List.length_take]
      omega
    have name_8 : name.take 8 = n.take 8 := by
      conv_rhs => rw [← takes, List.take_take, Nat.min_eq_left (by omega : 8 ≤ n.length)]
    rw [memSame_iff, ok.modname, name_8]
    have := @modname_take (pmte.uname upper) (n.take 8)
      (fun mem => request.no_zero upper (List.mem_of_mem_take mem)) (by omega)
    rwa [eight_n] at this
  rw [fFound, if_neg (by simp only [not_and]; omega), eight]
  simp only [if_true, Bool.and_eq_true, Bool.or_eq_true, decide_eq_true_eq]
  rw [front, show pmte.smte_restab.getD [] = pmte.name from rfl, same_name, same_ext, length_eq]
  exact long_iff long

theorem fFound_short (case : UCase upper) (request : Request upper name n) (ok : pmte.Ok upper)
    {cchExt cchName8 : ℕ} (short : n.length ≤ 8) :
    fFound upper ⟨n.length, cchExt, true, cchName8⟩ name pmte = true ↔
      pmte.Is upper n ∨ pmte.Truncated upper n := by
  have compare := short_iff (ok.uname_named case) (request.no_zero upper) short
  rw [fFound, if_pos ⟨short, rfl⟩, ok.modname]
  simp only [Bool.and_eq_true, Bool.or_eq_true, decide_eq_true_eq, memSame_iff]
  rw [request.takes upper, or_assoc, compare, Mte.Is, Mte.Truncated]
  constructor
  · rintro (same | front)
    · exact .inl (.inl same)
    · exact .inr ⟨short, front⟩
  · rintro ((same | same) | trunc)
    · exact .inl same
    · exact .inr (by rw [same])
    · exact .inr trunc.2

theorem fFound_iff (case : UCase upper) (request : Request upper name n) (ok : pmte.Ok upper) :
    fFound upper (parts name) name pmte = true ↔ pmte.Is upper n ∨ pmte.Truncated upper n := by
  obtain ⟨cchExt, eq⟩ := request.parts upper
  rw [eq]
  by_cases short : n.length ≤ 8
  · exact fFound_short case request ok short
  · rw [fFound_long case request ok (by omega) (by omega)]
    constructor
    · exact .inl
    · rintro (same | trunc)
      · exact same
      · exact absurd trunc.1 short

end Found

/-! ## The list -/

/-- The search is right exactly when no module that only its first eight characters make match
stands before every module of the name. -/
theorem myldrFindModule_right_iff (case : UCase upper) (mods : List Mte)
    (ok : ∀ pmte ∈ mods, pmte.Ok upper) {name n : List UInt8} (request : Request upper name n) :
    (myldrFindModule upper mods name).1 = 0 ∧
      (Right upper mods n (myldrFindModule upper mods name).2 ↔ Unshadowed upper mods n) := by
  have search : myldrFindModule upper mods name =
      (0, mods.findIdx? (fFound upper (parts name) name)) := by
    rw [myldrFindModule, if_neg]
    intro zero
    exact request.nonempty (List.eq_nil_of_length_eq_zero zero)
  have hit : ∀ (i : ℕ) (inside : i < mods.length),
      fFound upper (parts name) name mods[i] = true ↔
        mods[i].Is upper n ∨ mods[i].Truncated upper n :=
    fun i inside => fFound_iff case request (ok _ (List.getElem_mem inside))
  rw [search]
  refine ⟨rfl, ?_⟩
  dsimp only
  cases found : mods.findIdx? (fFound upper (parts name) name) with
  | none =>
    have misses := List.findIdx?_eq_none_iff.mp found
    have none_there : ∀ pmte ∈ mods, ¬ pmte.Is upper n ∧ ¬ pmte.Truncated upper n := by
      intro pmte mem
      have miss := misses pmte mem
      have hit := fFound_iff case request (ok pmte mem)
      rw [miss] at hit
      exact not_or.mp fun h => Bool.false_ne_true (hit.mpr h)
    constructor
    · intro _ i pmte at_i trunc
      exact absurd trunc (none_there pmte (List.mem_of_getElem? at_i)).2
    · intro _
      refine ⟨fun i h => ?_, fun _ pmte mem => (none_there pmte mem).1⟩
      cases h
  | some i =>
    obtain ⟨inside, hits, first⟩ := List.findIdx?_eq_some_iff_getElem.mp found
    have at_i : mods[i]? = some mods[i] := List.getElem?_eq_getElem inside
    constructor
    · intro right j pmte at_j trunc other
      obtain ⟨found_i, at_i', same⟩ := right.same i rfl
      obtain ⟨inside_j, rfl⟩ := List.getElem?_eq_some_iff.mp at_j
      refine ⟨i, ?_, found_i, at_i', same⟩
      rcases Nat.lt_trichotomy i j with lt | rfl | gt
      · exact lt
      · rw [at_i] at at_i'
        cases at_i'
        exact absurd same other
      · exact absurd ((hit j inside_j).mpr (.inr trunc)) (first j gt)
    · intro unshadowed
      refine ⟨fun k eq => ?_, fun h => by cases h⟩
      cases eq
      refine ⟨mods[i], at_i, ?_⟩
      by_contra other
      have trunc := ((hit i inside).mp hits).resolve_left other
      obtain ⟨j, lt, there, at_j, same⟩ := unshadowed i _ at_i trunc other
      obtain ⟨inside_j, rfl⟩ := List.getElem?_eq_some_iff.mp at_j
      exact first j lt ((hit j inside_j).mpr (.inl same))

/-- The upper case of the English letters. -/
def english (c : UInt8) : UInt8 := if 0x61 ≤ c ∧ c ≤ 0x7a then c - 0x20 else c

theorem english_ucase : UCase english where
  nonzero := by
    intro c zero
    unfold english at zero
    split_ifs at zero with letter
    · have eq : c = 0x20 := by
        rw [← UInt8.sub_add_cancel c 0x20, zero]
        rfl
      rw [eq] at letter
      exact absurd letter (by decide)
    · exact zero
  dll := by decide

def kernel32 : List UInt8 := [0x4b, 0x45, 0x52, 0x4e, 0x45, 0x4c, 0x33, 0x32]

/-- A module with an internal name in upper case. -/
def loaded (name : List UInt8) : Mte := ⟨modnameOf name, some name⟩

/-- A module with a longer name behind the one that is asked for. -/
def bothLoaded : List Mte := [loaded (kernel32 ++ dotDll), loaded (kernel32 ++ [0x58])]

theorem bothLoaded_ok : ∀ pmte ∈ bothLoaded, pmte.Ok english := by
  intro pmte mem
  rcases List.mem_cons.mp mem with rfl | mem
  · exact ⟨by decide, by decide⟩
  · rw [List.mem_singleton.mp mem]
    exact ⟨by decide, by decide⟩

theorem kernel32_request : Request english (kernel32 ++ dotDll) kernel32 :=
  ⟨by decide, by decide, by decide, .inr rfl⟩

theorem myldrFindModule_right_both :
    (myldrFindModule english bothLoaded (kernel32 ++ dotDll)).1 = 0 ∧
      (Right english bothLoaded kernel32
          (myldrFindModule english bothLoaded (kernel32 ++ dotDll)).2 ↔
        Unshadowed english bothLoaded kernel32) :=
  myldrFindModule_right_iff english english_ucase bothLoaded bothLoaded_ok kernel32_request

/-- The longer name alone is found for the shorter one. -/
theorem kernel32_not_right :
    ¬ ∀ (upper : UInt8 → UInt8), UCase upper → ∀ (mods : List Mte),
      (∀ pmte ∈ mods, pmte.Ok upper) → ∀ (name n : List UInt8), Request upper name n →
        Right upper mods n (myldrFindModule upper mods name).2 := by
  intro all
  have ok : ∀ pmte ∈ [loaded (kernel32 ++ [0x58])], pmte.Ok english := by
    intro pmte mem
    rw [List.mem_singleton.mp mem]
    exact ⟨by decide, by decide⟩
  have right := all english english_ucase _ ok kernel32 kernel32
    ⟨by decide, by decide, by decide, .inl ⟨by decide, rfl⟩⟩
  obtain ⟨pmte, at_0, same⟩ := right.same 0 (by decide)
  cases at_0
  exact absurd same (by decide)

end Odin32.FindModule
