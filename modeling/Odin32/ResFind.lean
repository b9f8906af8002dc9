import Odin32.ResTree
import Mathlib.Data.List.TakeWhile
import Mathlib.Tactic.Common

/-! # The order of the resource lookup

What `findResourceA` and `findResourceW` find in a well-formed tree, beside the unique matching
entries and the documented order of the languages. -/

set_option autoImplicit false

namespace Odin32.ResTree
open Odin32.BinarySearch

variable {α : Type}

/-! ## Well-formed directories -/

/-- Two names are one up to case. -/
def SameName (loc : Locale) (s t : List ℕ) : Prop := s.map loc.toupperW = t.map loc.toupperW

/-- The ids ascend, and no two named entries have one name. -/
structure Directory.Ordered (loc : Locale) (dir : Directory α) : Prop where
  ids : dir.ids.Pairwise fun e f => e.1 < f.1
  words : ∀ e ∈ dir.ids, e.1 < 0x10000
  names : dir.named.Pairwise fun e f => ¬ SameName loc e.1.chars f.1.chars
  chars : ∀ e ∈ dir.named, 0 ∉ e.1.chars

def Names.Ordered (loc : Locale) (names : Names) : Prop :=
  Directory.Ordered loc names ∧
    (∀ e ∈ names.named, Directory.Ordered loc e.2) ∧ ∀ e ∈ names.ids, Directory.Ordered loc e.2

def Types.Ordered (loc : Locale) (root : Types) : Prop :=
  Directory.Ordered loc root ∧
    (∀ e ∈ root.named, Names.Ordered loc e.2) ∧ ∀ e ∈ root.ids, Names.Ordered loc e.2

/-- Entry `p` leads to `a` and is the one of the key. -/
def IsEntry (loc : Locale) (dir : Directory α) (key : Key) (p : ℕ) (a : α) : Prop :=
  match key with
  | .first => dir.first = some (p, a)
  | .id n => ∃ i, dir.ids[i]? = some (n, a) ∧ p = dir.named.length + i
  | .name s => ∃ str, dir.named[p]? = some (str, a) ∧ SameName loc str.chars s

/-! ## The searches find the entry -/

theorem pair_get {r : α → α → Prop} {l : List α} (pairs : l.Pairwise r) {i j : ℕ} {x y : α}
    (atI : l[i]? = some x) (atJ : l[j]? = some y) (lt : i < j) : r x y := by
  obtain ⟨inI, rfl⟩ := List.getElem?_eq_some_iff.mp atI
  obtain ⟨inJ, rfl⟩ := List.getElem?_eq_some_iff.mp atJ
  exact List.pairwise_iff_getElem.mp pairs i j inI inJ lt

section ById
variable {dir : Directory α} (ids : dir.ids.Pairwise fun e f => e.1 < f.1) (id : ℕ)

include ids in
theorem diff_ascends : Ascends (dir.diff id) dir.ids.length := by
  have le : ∀ i j, 1 ≤ i → i ≤ j → j ≤ dir.ids.length →
      (dir.ids[i - 1]?.map Prod.fst).getD 0 ≤ (dir.ids[j - 1]?.map Prod.fst).getD 0 := by
    intro i j low order high
    rcases Nat.eq_or_lt_of_le order with rfl | lt
    · exact le_rfl
    · have inI : i - 1 < dir.ids.length := by omega
      have inJ : j - 1 < dir.ids.length := by omega
      have := pair_get ids (List.getElem?_eq_getElem inI) (List.getElem?_eq_getElem inJ)
        (by omega)
      simpa [List.getElem?_eq_getElem inI, List.getElem?_eq_getElem inJ] using this.le
  constructor
  · intro i j low order high less
    rw [Directory.diff, Nat.compare_eq_lt] at less ⊢
    exact lt_of_le_of_lt (le i j low order high) less
  · intro i j low order high greater
    rw [Directory.diff, Nat.compare_eq_gt] at greater ⊢
    exact lt_of_lt_of_le greater (le i j low order high)

theorem diff_eq {pos : ℕ} (low : 1 ≤ pos) (high : pos ≤ dir.ids.length) :
    dir.diff id pos = .eq ↔ ∃ a, dir.ids[pos - 1]? = some (id, a) := by
  have inside : pos - 1 < dir.ids.length := by omega
  rw [Directory.diff, Nat.compare_eq_eq, List.getElem?_eq_getElem inside]
  constructor
  · intro equal
    exact ⟨dir.ids[pos - 1].2, by rw [← equal]; rfl⟩
  · rintro ⟨a, here⟩
    rw [here]
    rfl

include ids in
theorem findEntryById_iff (p : ℕ) (a : α) : dir.findEntryById id = some (p, a) ↔
    ∃ i, dir.ids[i]? = some (id, a) ∧ p = dir.named.length + i := by
  rw [Directory.findEntryById]
  rcases search_finds (diff_ascends ids id) with ⟨pos, found, low, high, equal⟩ | ⟨missing, none⟩
  · obtain ⟨b, here⟩ := (diff_eq id low high).mp equal
    rw [found, Option.bind_some, here, Option.map_some, Option.some_inj, Prod.mk.injEq]
    constructor
    · rintro ⟨rfl, rfl⟩
      exact ⟨pos - 1, here, rfl⟩
    · rintro ⟨i, there, rfl⟩
      rcases lt_trichotomy i (pos - 1) with lt | rfl | lt
      · exact absurd (pair_get ids there here lt) (lt_irrefl _)
      · rw [here] at there
        cases there
        exact ⟨rfl, rfl⟩
      · exact absurd (pair_get ids here there lt) (lt_irrefl _)
  · rw [missing, Option.bind_none]
    constructor
    · intro impossible
      cases impossible
    · rintro ⟨i, there, -⟩
      have inside := (List.getElem?_eq_some_iff.mp there).1
      exact absurd ((diff_eq id (Nat.succ_pos i) inside).mpr ⟨a, there⟩)
        (none (i + 1) (Nat.succ_pos i) inside)

end ById

theorem sameName_length {loc : Locale} {s t : List ℕ} (same : SameName loc s t) :
    s.length = t.length := by
  simpa using congrArg List.length same

theorem sameName_cons {loc : Locale} {x y : ℕ} {s t : List ℕ} :
    SameName loc (x :: s) (y :: t) ↔ loc.toupperW x = loc.toupperW y ∧ SameName loc s t := by
  rw [SameName, List.map_cons, List.map_cons, List.cons.injEq]
  exact Iff.rfl

theorem head_ne_zero {s : List ℕ} (chars : 0 ∉ s) : s.head? ≠ some 0 := by
  intro zero
  exact chars (List.mem_of_mem_head? zero)

theorem lstrncmpiW_iff (loc : Locale) {s t : List ℕ} (length : s.length = t.length)
    (charsS : 0 ∉ s) (charsT : 0 ∉ t) :
    lstrncmpiW loc.toupperW s t = true ↔ SameName loc s t := by
  induction s generalizing t with
  | nil =>
    obtain rfl := List.length_eq_zero_iff.mp length.symm
    exact iff_of_true rfl rfl
  | cons x s ih =>
    obtain ⟨y, t, rfl⟩ := List.exists_cons_of_length_eq_add_one length.symm
    rw [List.mem_cons, not_or] at charsS charsT
    have goesOn : ¬ (s.head? = some 0 ∨ t.head? = some 0) := by
      rintro (zero | zero)
      · exact head_ne_zero charsS.2 zero
      · exact head_ne_zero charsT.2 zero
    rw [lstrncmpiW, if_neg goesOn, sameName_cons]
    by_cases equal : loc.toupperW x = loc.toupperW y
    · rw [if_pos equal, ih (by simpa using length) charsS.2 charsT.2]
      exact (and_iff_right equal).symm
    · rw [if_neg equal]
      exact iff_of_false Bool.false_ne_true fun both => equal both.1

theorem compare_iff (loc : Locale) {s t : List ℕ} (charsS : 0 ∉ s) (charsT : 0 ∉ t) :
    (s.length = t.length ∧ lstrncmpiW loc.toupperW s t = true) ↔ SameName loc s t := by
  constructor
  · rintro ⟨length, equal⟩
    exact (lstrncmpiW_iff loc length charsS charsT).mp equal
  · intro same
    exact ⟨sameName_length same,
      (lstrncmpiW_iff loc (sameName_length same) charsS charsT).mpr same⟩

theorem findNamed_iff (loc : Locale) {s : List ℕ} (charsS : 0 ∉ s) {named : List (NameString × α)}
    (names : named.Pairwise fun e f => ¬ SameName loc e.1.chars f.1.chars)
    (chars : ∀ e ∈ named, 0 ∉ e.1.chars) (i p : ℕ) (a : α) :
    findNamed loc s named i = some (p, a) ↔
      ∃ k str, named[k]? = some (str, a) ∧ p = i + k ∧ SameName loc str.chars s := by
  induction named generalizing i with
  | nil =>
    constructor
    · intro impossible
      cases impossible
    · rintro ⟨k, str, there, -⟩
      cases there
  | cons e rest ih =>
    obtain ⟨str, b⟩ := e
    obtain ⟨others, names⟩ := List.pairwise_cons.mp names
    have later := ih names (fun f inside => chars f (List.mem_cons_of_mem _ inside)) (i + 1)
    have charsStr : 0 ∉ str.chars := chars (str, b) (List.mem_cons_self ..)
    rw [findNamed]
    by_cases same : SameName loc str.chars s
    · rw [if_pos ((compare_iff loc charsStr charsS).mpr same), Option.some_inj, Prod.mk.injEq]
      constructor
      · rintro ⟨rfl, rfl⟩
        exact ⟨0, str, rfl, rfl, same⟩
      · rintro ⟨k, other, there, rfl, again⟩
        cases k with
        | zero =>
          cases there
          exact ⟨rfl, rfl⟩
        | succ k =>
          exact absurd (Eq.trans same again.symm) (others _ (List.mem_of_getElem? there))
    · rw [if_neg fun found => same ((compare_iff loc charsStr charsS).mp found), later]
      constructor
      · rintro ⟨k, other, there, rfl, again⟩
        exact ⟨k + 1, other, there, by omega, again⟩
      · rintro ⟨k, other, there, rfl, again⟩
        cases k with
        | zero =>
          cases there
          exact absurd again same
        | succ k => exact ⟨k, other, there, by omega, again⟩

/-- A key that can be searched for. -/
def Key.Ok : Key → Prop
  | .name s => 0 ∉ s
  | _ => True

theorem lookup_iff {loc : Locale} {dir : Directory α} (ordered : dir.Ordered loc) {key : Key}
    (ok : key.Ok) (p : ℕ) (a : α) :
    dir.lookup loc key = some (p, a) ↔ IsEntry loc dir key p a := by
  cases key with
  | first => exact Iff.rfl
  | id n => exact findEntryById_iff ordered.ids n p a
  | name s =>
    rw [Directory.lookup, findNamed_iff loc ok ordered.names ordered.chars]
    constructor
    · rintro ⟨k, str, there, rfl, same⟩
      rw [Nat.zero_add]
      exact ⟨str, there, same⟩
    · rintro ⟨str, there, same⟩
      exact ⟨p, str, there, (Nat.zero_add p).symm, same⟩

/-! ## Types and names -/

/-- A number or a string, as a program passes them. -/
def ResName.Ok : ResName → Prop
  | .id n => n < 0x10000
  | .str s => 0 ∉ s
  | _ => False

/-- What a name stands for: `#` and a decimal number is the id, other strings are names. -/
def wantedName : ResName → Option Key
  | .nonsense => none
  | .getFirst => some .first
  | .id n => some (.id n)
  | .str (0x23 :: digits) =>
    if digits ≠ [] ∧ ∀ ch ∈ digits, isDigit ch = true then some (.id (decimal digits))
    else some (.name (0x23 :: digits))
  | .str s => some (.name s)

/-- A standard type has its number also by its name. -/
def wantedType : ResName → Option Key
  | .str s => ((stdType s).map Key.id).or (wantedName (.str s))
  | other => wantedName other

/-- Entry `p` leads to `a` and is the one that is meant. -/
def Matches (loc : Locale) (dir : Directory α) (key : Option Key) (p : ℕ) (a : α) : Prop :=
  ∃ k, key = some k ∧ IsEntry loc dir k p a

theorem subDirKey_ok {loc : Locale} {name : ResName} (ok : name.Ok) {key : Key}
    (made : subDirKey loc name = some key) : key.Ok := by
  unfold subDirKey at made
  split at made
  · cases made
  · cases made
    trivial
  · cases made
    trivial
  · dsimp only at made
    split_ifs at made
    · cases made
      exact ok
    · cases made
      trivial
  · cases made
    exact ok

theorem getResSubDirW_iff {loc : Locale} {dir : Directory α} (ordered : dir.Ordered loc)
    {name : ResName} (ok : name.Ok) (p : ℕ) (a : α) :
    getResSubDirW loc dir name = some (p, a) ↔ Matches loc dir (subDirKey loc name) p a := by
  rw [getResSubDirW, Option.bind_eq_some_iff]
  constructor
  · rintro ⟨key, made, found⟩
    exact ⟨key, made, (lookup_iff ordered (subDirKey_ok ok made) p a).mp found⟩
  · rintro ⟨key, made, entry⟩
    exact ⟨key, made, (lookup_iff ordered (subDirKey_ok ok made) p a).mpr entry⟩

theorem ResName.Ok.wide {name : ResName} (ok : name.Ok) (loc : Locale) : (name.wide loc).Ok := by
  cases name with
  | str s => exact loc.toUnicode_chars s ok
  | id n => exact ok
  | getFirst => exact ok
  | nonsense => exact ok

theorem stdType_lt {s : List ℕ} {i : ℕ} (std : stdType s = some i) : i < 17 :=
  (List.findIdx?_eq_some_iff_getElem.mp std).1

theorem stdType_hash (s : List ℕ) : stdType (0x23 :: s) = none := by
  rw [stdType, List.findIdx?_eq_none_iff]
  intro typenam inside
  have heads : ∀ t ∈ resType, (t.map upcase).head? ≠ some 0x23 := by decide
  rw [Bool.and_eq_false_iff]
  right
  refine decide_eq_false fun equal => heads typenam inside ?_
  rw [← equal]
  rfl

theorem typeA_ok {type : ResName} (ok : type.Ok) : (typeA type).Ok := by
  cases type with
  | str s =>
    cases std : stdType s with
    | none => simpa only [typeA, std] using ok
    | some i =>
      have := stdType_lt std
      simp only [typeA, std, ResName.Ok]
      omega
  | id n => exact ok
  | getFirst => exact ok
  | nonsense => exact ok

theorem typeW_ok {type : ResName} (ok : type.Ok) (loc : Locale) : (typeW loc type).Ok := by
  cases type with
  | str s =>
    rw [typeW]
    split_ifs with hash
    · exact ok
    · cases std : stdType (loc.toAscii s) with
      | none => exact ok
      | some i =>
        have := stdType_lt std
        simp only [ResName.Ok]
        omega
  | id n => exact ok
  | getFirst => exact ok
  | nonsense => exact ok

/-! ## Languages -/

def HasLang (languages : Languages) (lang : ℕ) : Prop := ∃ a, (lang, a) ∈ languages.ids

/-- The languages in the order in which they are asked for, as documented. -/
def langOrder (lang : ℕ) : List ℕ :=
  [lang, makeLangId (primaryLangId lang) 0, makeLangId 0 0, makeLangId 0 1]

/-- The first language of the list that exists. -/
def firstOf (languages : Languages) (order : List ℕ) : Option ℕ :=
  order.findSome? fun lang => (languages.ids.find? fun e => e.1 = lang).map Prod.snd

/-- Neutral with the default sublanguage is missing, or one before it exists. -/
def LangOk (languages : Languages) (lang : ℕ) : Prop :=
  HasLang languages (makeLangId 0 1) → HasLang languages lang ∨
    HasLang languages (makeLangId (primaryLangId lang) 0) ∨ HasLang languages (makeLangId 0 0)

theorem getResDataLang_false (languages : Languages) (lang : ℕ) :
    getResDataLang languages lang false =
      (languages.ids.find? fun e => e.1 = lang).map Prod.snd := by
  rw [getResDataLang]
  cases languages.ids.find? fun e => e.1 = lang with
  | none => rfl
  | some e => rfl

theorem getResDataLang_none {languages : Languages} {lang : ℕ} :
    getResDataLang languages lang false = none ↔ ¬ HasLang languages lang := by
  rw [getResDataLang_false, Option.map_eq_none_iff, List.find?_eq_none]
  constructor
  · rintro none ⟨a, inside⟩
    exact none _ inside (decide_eq_true rfl)
  · rintro missing ⟨l, a⟩ inside equal
    obtain rfl := of_decide_eq_true equal
    exact missing ⟨a, inside⟩

theorem getResourceLangEx_iff (languages : Languages) (lang : ℕ) :
    getResourceLangEx languages lang = firstOf languages (langOrder lang) ↔
      LangOk languages lang := by
  have order : firstOf languages (langOrder lang) =
      (getResDataLang languages lang false).or
        ((getResDataLang languages (makeLangId (primaryLangId lang) 0) false).or
          ((getResDataLang languages (makeLangId 0 0) false).or
            (getResDataLang languages (makeLangId 0 1) false))) := by
    simp only [getResDataLang_false, firstOf, langOrder, List.findSome?_cons, List.findSome?_nil]
    cases languages.ids.find? fun e => e.1 = lang <;>
      cases languages.ids.find? fun e => e.1 = makeLangId (primaryLangId lang) 0 <;>
      cases languages.ids.find? fun e => e.1 = makeLangId 0 0 <;>
      cases languages.ids.find? fun e => e.1 = makeLangId 0 1 <;> rfl
  have again : makeLangId (primaryLangId (makeLangId 0 0)) 0 = makeLangId 0 0 := rfl
  rw [order, LangOk, getResourceLangEx]
  dsimp only
  rw [again]
  cases exact' : getResDataLang languages lang false with
  | some a =>
    refine iff_of_true rfl fun _ => .inl ?_
    by_contra missing
    rw [getResDataLang_none.mpr missing] at exact'
    cases exact'
  | none =>
    cases primary : getResDataLang languages (makeLangId (primaryLangId lang) 0) false with
    | some a =>
      refine iff_of_true rfl fun _ => .inr (.inl ?_)
      by_contra missing
      rw [getResDataLang_none.mpr missing] at primary
      cases primary
    | none =>
      cases neutral : getResDataLang languages (makeLangId 0 0) false with
      | some a =>
        refine iff_of_true rfl fun _ => .inr (.inr ?_)
        by_contra missing
        rw [getResDataLang_none.mpr missing] at neutral
        cases neutral
      | none =>
        have none' := getResDataLang_none.mp exact'
        have nonePrimary := getResDataLang_none.mp primary
        have noneNeutral := getResDataLang_none.mp neutral
        rw [Option.none_or, Option.none_or, Option.none_or, eq_comm, getResDataLang_none]
        constructor
        · intro missing there
          exact absurd there missing
        · rintro present there
          rcases present there with here | here | here
          · exact none' here
          · exact nonePrimary here
          · exact noneNeutral here

/-! ## The lookup -/

/-- The lookup finds the matching directories and, for a language of its own, the first of the
documented languages. -/
structure Right (loc : Locale) (root : Types) (kt kn : Option Key) (lang : ℕ)
    (typeDir : Option (ℕ × Names)) (nameDir : Names → Option (ℕ × Languages))
    (hRes : Except NotFound (Option ℕ)) : Prop where
  type : ∀ p names, typeDir = some (p, names) ↔ Matches loc root kt p names
  name : ∀ p names, Matches loc root kt p names → ∀ q languages,
    nameDir names = some (q, languages) ↔ Matches loc names kn q languages
  noType : (∀ p names, ¬ Matches loc root kt p names) → hRes = .error .type
  noName : ∀ p names, Matches loc root kt p names →
    (∀ q languages, ¬ Matches loc names kn q languages) → hRes = .error .name
  language : ∀ p names q languages, Matches loc root kt p names →
    Matches loc names kn q languages → isNeutral lang = false →
      hRes = .ok (firstOf languages (langOrder lang))

def RightA (loc : Locale) (root : Types) (lpszName lpszType : ResName) (lang : ℕ) : Prop :=
  Right loc root (wantedType (lpszType.wide loc)) (wantedName (lpszName.wide loc)) lang
    (getResSubDirA loc root (typeA lpszType)) (fun names => getResSubDirA loc names lpszName)
    (findResourceA loc root lpszName lpszType lang)

def RightW (loc : Locale) (root : Types) (lpszName lpszType : ResName) (lang : ℕ) : Prop :=
  Right loc root (wantedType lpszType) (wantedName lpszName) lang
    (getResSubDirW loc root (typeW loc lpszType)) (fun names => getResSubDirW loc names lpszName)
    (findResourceW loc root lpszName lpszType lang)

/-- In the directory two keys have the same entry, or neither has one. -/
def SameEntry (loc : Locale) (dir : Directory α) (key key' : Option Key) : Prop :=
  ∀ p a, Matches loc dir key p a ↔ Matches loc dir key' p a

/-- What is searched for has the entry of what is meant, and no language is missed. -/
structure Kept (loc : Locale) (root : Types) (kt kn kt' kn' : Option Key) (lang : ℕ) : Prop where
  type : SameEntry loc root kt' kt
  name : ∀ p names, Matches loc root kt p names → SameEntry loc names kn' kn
  language : ∀ p names q languages, Matches loc root kt p names →
    Matches loc names kn q languages → isNeutral lang = false → LangOk languages lang

def KeptA (loc : Locale) (root : Types) (lpszName lpszType : ResName) (lang : ℕ) : Prop :=
  Kept loc root (wantedType (lpszType.wide loc)) (wantedName (lpszName.wide loc))
    (subDirKey loc ((typeA lpszType).wide loc)) (subDirKey loc (lpszName.wide loc)) lang

def KeptW (loc : Locale) (root : Types) (lpszName lpszType : ResName) (lang : ℕ) : Prop :=
  Kept loc root (wantedType lpszType) (wantedName lpszName)
    (subDirKey loc (typeW loc lpszType)) (subDirKey loc lpszName) lang

theorem IsEntry.mem {loc : Locale} {dir : Directory α} {key : Key} {p : ℕ} {a : α}
    (entry : IsEntry loc dir key p a) :
    (∃ e ∈ dir.named, e.2 = a) ∨ ∃ e ∈ dir.ids, e.2 = a := by
  cases key with
  | first =>
    rw [IsEntry, Directory.first, Option.map_eq_some_iff] at entry
    obtain ⟨b, head, same⟩ := entry
    cases same
    rcases List.mem_append.mp (List.mem_of_mem_head? head) with inside | inside
    · exact .inl (List.mem_map.mp inside)
    · exact .inr (List.mem_map.mp inside)
  | id n =>
    obtain ⟨i, there, -⟩ := entry
    exact .inr ⟨_, List.mem_of_getElem? there, rfl⟩
  | name s =>
    obtain ⟨str, there, -⟩ := entry
    exact .inl ⟨_, List.mem_of_getElem? there, rfl⟩

theorem Matches.names_ordered {loc : Locale} {root : Types} (ordered : root.Ordered loc)
    {key : Option Key} {p : ℕ} {names : Names} (entry : Matches loc root key p names) :
    Names.Ordered loc names := by
  obtain ⟨k, -, entry⟩ := entry
  rcases entry.mem with ⟨e, inside, rfl⟩ | ⟨e, inside, rfl⟩
  · exact ordered.2.1 e inside
  · exact ordered.2.2 e inside

section Lookup
variable {loc : Locale} {root : Types} {type name : ResName} {lang : ℕ}

theorem findResource_noType (missing : getResSubDirW loc root type = none) :
    findResource loc root type name lang = .error .type := by
  rw [findResource, missing]

theorem findResource_noName {p : ℕ} {names : Names}
    (found : getResSubDirW loc root type = some (p, names))
    (missing : getResSubDirW loc names name = none) :
    findResource loc root type name lang = .error .name := by
  rw [findResource, found]
  dsimp only
  rw [missing]

theorem findResource_explicit {p q : ℕ} {names : Names} {languages : Languages}
    (found : getResSubDirW loc root type = some (p, names))
    (foundName : getResSubDirW loc names name = some (q, languages))
    (explicit : isNeutral lang = false) :
    findResource loc root type name lang = .ok (getResourceLangEx languages lang) := by
  rw [findResource, found]
  dsimp only
  rw [foundName]
  dsimp only
  rw [explicit, if_neg Bool.false_ne_true]

theorem none_of_agree {found : Option (ℕ × α)} {meant : ℕ → α → Prop}
    (agree : ∀ p a, found = some (p, a) ↔ meant p a) (missing : ∀ p a, ¬ meant p a) :
    found = none := by
  cases found with
  | none => rfl
  | some e => exact absurd ((agree e.1 e.2).mp rfl) (missing e.1 e.2)

theorem right_iff (ordered : root.Ordered loc) (typeOk : type.Ok) (nameOk : name.Ok)
    (kt kn : Option Key) :
    Right loc root kt kn lang (getResSubDirW loc root type)
        (fun names => getResSubDirW loc names name) (findResource loc root type name lang) ↔
      Kept loc root kt kn (subDirKey loc type) (subDirKey loc name) lang := by
  have searched := getResSubDirW_iff ordered.1 typeOk
  constructor
  · intro right
    refine ⟨fun p a => ?_, fun p names entry q a => ?_,
      fun p names q languages entry nameEntry explicit => ?_⟩
    · rw [← searched p a]
      exact right.type p a
    · rw [← getResSubDirW_iff (entry.names_ordered ordered).1 nameOk q a]
      exact right.name p names entry q a
    · have result := right.language p names q languages entry nameEntry explicit
      rw [findResource_explicit ((right.type p names).mpr entry)
        ((right.name p names entry q languages).mpr nameEntry) explicit] at result
      exact (getResourceLangEx_iff languages lang).mp (Except.ok.inj result)
  · intro kept
    have typeDir : ∀ p names,
        getResSubDirW loc root type = some (p, names) ↔ Matches loc root kt p names := by
      intro p names
      rw [searched p names]
      exact kept.type p names
    have nameDir : ∀ p names, Matches loc root kt p names → ∀ q languages,
        getResSubDirW loc names name = some (q, languages) ↔
          Matches loc names kn q languages := by
      intro p names entry q languages
      rw [getResSubDirW_iff (entry.names_ordered ordered).1 nameOk q languages]
      exact kept.name p names entry q languages
    refine ⟨typeDir, nameDir, fun missing => ?_, fun p names entry missing => ?_,
      fun p names q languages entry nameEntry explicit => ?_⟩
    · exact findResource_noType (none_of_agree typeDir missing)
    · exact findResource_noName ((typeDir p names).mpr entry)
        (none_of_agree (nameDir p names entry) missing)
    · rw [findResource_explicit ((typeDir p names).mpr entry)
        ((nameDir p names entry q languages).mpr nameEntry) explicit,
        (getResourceLangEx_iff languages lang).mpr
          (kept.language p names q languages entry nameEntry explicit)]

end Lookup

/-! ## ASCII -/

/-- A number, or a string of ASCII characters. -/
def ResName.IsAscii : ResName → Prop
  | .str s => ResTree.IsAscii s
  | _ => True

theorem wide_ascii (loc : Locale) {name : ResName} (ascii : name.IsAscii) :
    name.wide loc = name := by
  cases name with
  | str s => exact congrArg ResName.str (loc.toUnicode_ascii s ascii)
  | id n => rfl
  | getFirst => rfl
  | nonsense => rfl

theorem typeW_ascii (loc : Locale) {type : ResName} (ascii : type.IsAscii) :
    typeW loc type = typeA type := by
  cases type with
  | str s =>
    rw [typeW, typeA, loc.toAscii_ascii s ascii]
    split_ifs with hash
    · obtain ⟨rest, rfl⟩ := List.head?_eq_some_iff.mp hash
      rw [stdType_hash]
    · rfl
  | id n => rfl
  | getFirst => rfl
  | nonsense => rfl

theorem typeA_ascii {type : ResName} (ascii : type.IsAscii) : (typeA type).IsAscii := by
  cases type with
  | str s =>
    cases std : stdType s with
    | none => simpa only [typeA, std] using ascii
    | some i => simp only [typeA, std, ResName.IsAscii]
  | id n => exact ascii
  | getFirst => exact ascii
  | nonsense => exact ascii

theorem findResource_ascii (loc : Locale) (root : Types) {name type : ResName}
    (nameAscii : name.IsAscii) (typeAscii : type.IsAscii) (lang : ℕ) :
    findResourceA loc root name type lang = findResourceW loc root name type lang := by
  rw [findResourceA, findResourceW, wide_ascii loc (typeA_ascii typeAscii),
    wide_ascii loc nameAscii, typeW_ascii loc typeAscii]

/-! ## Strings with and without a number -/

/-! ## The main theorem -/

def plainLocale : Locale where
  toupperW := upcase
  toAscii := id
  toUnicode := id
  defaultLang := 0x409
  toAscii_ascii := fun _ _ => rfl
  toUnicode_ascii := fun _ _ => rfl
  toUnicode_chars := fun _ chars => chars

/-- Data 1 of the type `RCDATA`, in one language. -/
def oneResource (lang : ℕ) : Types := ⟨[], [(10, ⟨[], [(1, ⟨[], [(lang, 7)]⟩)]⟩)]⟩

theorem oneDirectory_ordered (loc : Locale) (id : ℕ) (a : α) (word : id < 0x10000) :
    Directory.Ordered loc (⟨[], [(id, a)]⟩ : Directory α) where
  ids := List.pairwise_singleton _ _
  words := by
    intro e inside
    obtain rfl := List.mem_singleton.mp inside
    exact word
  names := List.Pairwise.nil
  chars := fun _ inside => absurd inside List.not_mem_nil

theorem oneResource_ordered (loc : Locale) (lang : ℕ) (word : lang < 0x10000) :
    (oneResource lang).Ordered loc := by
  refine ⟨oneDirectory_ordered loc _ _ (by decide),
    fun _ inside => absurd inside List.not_mem_nil, fun e inside => ?_⟩
  obtain rfl := List.mem_singleton.mp inside
  refine ⟨oneDirectory_ordered loc _ _ (by decide),
    fun _ inside => absurd inside List.not_mem_nil, fun e inside => ?_⟩
  obtain rfl := List.mem_singleton.mp inside
  exact oneDirectory_ordered loc _ _ word

end Odin32.ResTree
