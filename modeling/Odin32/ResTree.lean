import Odin32.BinarySearch
import Mathlib.Data.List.Basic

/-! # Resource directories

The resource tree of a PE image and the searches in it: `getResSubDirW` finds a directory by an id
or a name, `getResourceLang` and `getResourceLangEx` go over the languages. -/

set_option autoImplicit false

namespace Odin32.ResTree
open Odin32.BinarySearch

/-- Characters by their codes. -/
def ascii (s : String) : List ℕ := s.toList.map Char.toNat

def IsAscii (s : List ℕ) : Prop := ∀ ch ∈ s, ch < 0x80

/-- The tables of the code page and of the upper case, and the language of the user. -/
structure Locale where
  toupperW : ℕ → ℕ
  /-- `UnicodeToAsciiString` -/
  toAscii : List ℕ → List ℕ
  /-- `AsciiToUnicodeString` -/
  toUnicode : List ℕ → List ℕ
  defaultLang : ℕ
  toAscii_ascii : ∀ s, IsAscii s → toAscii s = s
  toUnicode_ascii : ∀ s, IsAscii s → toUnicode s = s
  toUnicode_chars : ∀ s, 0 ∉ s → 0 ∉ toUnicode s

/-! ## The tree -/

/-- `IMAGE_RESOURCE_DIR_STRING_U`: the characters by `Length`, and what follows in memory. -/
structure NameString where
  chars : List ℕ
  behind : ℕ → ℕ

/-- A resource directory: its named entries and its id entries. -/
structure Directory (α : Type) where
  named : List (NameString × α)
  ids : List (ℕ × α)

/-- The languages of a resource, with their data entries. -/
abbrev Languages := Directory ℕ
abbrev Names := Directory Languages
abbrev Types := Directory Names

variable {α : Type}

/-! ## Search by id and by name -/

/-- The id at a position beside the one searched for; positions count from the first id entry. -/
def Directory.diff (dir : Directory α) (id pos : ℕ) : Ordering :=
  compare ((dir.ids[pos - 1]?.map Prod.fst).getD 0) id

/-- `find_entry_by_id`: the position of the entry and what it leads to. -/
def Directory.findEntryById (dir : Directory α) (id : ℕ) : Option (ℕ × α) :=
  (search (dir.diff id) (dir.ids.length + 1) 1 dir.ids.length).bind fun pos =>
    dir.ids[pos - 1]?.map fun e => (dir.named.length + (pos - 1), e.2)

/-- `lstrncmpiW` of two strings of one length: whether it answers 0. It stops at a 0 in either. -/
def lstrncmpiW (toupperW : ℕ → ℕ) : List ℕ → List ℕ → Bool
  | firstch :: str1, lastch :: str2 =>
    if toupperW firstch = toupperW lastch then
      if str1.head? = some 0 ∨ str2.head? = some 0 then true else lstrncmpiW toupperW str1 str2
    else false
  | _, _ => true

/-- The loop over the named entries. -/
def findNamed (loc : Locale) (lpszName : List ℕ) : List (NameString × α) → ℕ → Option (ℕ × α)
  | [], _ => none
  | (pResDirStr, a) :: rest, i =>
    if pResDirStr.chars.length = lpszName.length ∧
        lstrncmpiW loc.toupperW pResDirStr.chars lpszName = true then some (i, a)
    else findNamed loc lpszName rest (i + 1)

/-- A type or a name as it is passed: a number below 65536, `ID_GETFIRST`, -1 or a string. -/
inductive ResName where
  | id (n : ℕ)
  | getFirst
  | nonsense
  | str (s : List ℕ)
deriving DecidableEq, Repr

/-- What an entry is searched by. -/
inductive Key where
  | first
  | id (n : ℕ)
  | name (s : List ℕ)
deriving DecidableEq, Repr

def isDigit (ch : ℕ) : Bool := 0x30 ≤ ch && ch ≤ 0x39

def decimal (s : List ℕ) : ℕ := s.foldl (fun n ch => 10 * n + (ch - 0x30)) 0

def atoi (s : List ℕ) : ℤ :=
  match s.dropWhile fun ch => ch = 0x20 || 0x9 ≤ ch && ch ≤ 0xd with
  | 0x2d :: digits => -(decimal (digits.takeWhile isDigit) : ℤ)
  | 0x2b :: digits => decimal (digits.takeWhile isDigit)
  | digits => decimal (digits.takeWhile isDigit)

/-- What `getResSubDirW` makes of its name. The text behind `#` is converted in a buffer of ten
characters, and the id is a `WORD`. -/
def subDirKey (loc : Locale) : ResName → Option Key
  | .nonsense => none
  | .getFirst => some .first
  | .id n => some (.id n)
  | .str (0x23 :: rest) =>
    let idName := atoi ((loc.toAscii rest).take 9)
    if idName = -1 then some (.name (0x23 :: rest)) else some (.id (idName % 0x10000).toNat)
  | .str s => some (.name s)

/-- The first entry of the table. -/
def Directory.first (dir : Directory α) : Option (ℕ × α) :=
  ((dir.named.map Prod.snd ++ dir.ids.map Prod.snd).head?).map fun a => (0, a)

def Directory.lookup (loc : Locale) (dir : Directory α) : Key → Option (ℕ × α)
  | .first => dir.first
  | .id n => dir.findEntryById n
  | .name s => findNamed loc s dir.named 0

/-- `getResSubDirW`: the position of the entry and its directory. -/
def getResSubDirW (loc : Locale) (dir : Directory α) (lpszName : ResName) : Option (ℕ × α) :=
  (subDirKey loc lpszName).bind (dir.lookup loc)

/-- A name with its string converted. -/
def ResName.wide (loc : Locale) : ResName → ResName
  | .str s => .str (loc.toUnicode s)
  | other => other

def getResSubDirA (loc : Locale) (dir : Directory α) (lpszName : ResName) : Option (ℕ × α) :=
  getResSubDirW loc dir (lpszName.wide loc)

/-! ## Languages -/

/-- `MAKELANGID` of a primary and a sublanguage. -/
def makeLangId (p s : ℕ) : ℕ := s * 0x400 + p

def primaryLangId (l : ℕ) : ℕ := l % 0x400

/-- `getResDataLang`; `fGetDefault` gives the first entry where the language is missing. -/
def getResDataLang (dir : Languages) (language : ℕ) (fGetDefault : Bool) : Option ℕ :=
  match dir.ids.find? fun e => e.1 = language with
  | some e => some e.2
  | none => if fGetDefault then dir.ids.head?.map Prod.snd else none

def getResourceLang (loc : Locale) (dir : Languages) : Option ℕ :=
  match getResDataLang dir (makeLangId 0 0) false with
  | some hRes => some hRes
  | none =>
    match getResDataLang dir (makeLangId 0 1) false with
    | some hRes => some hRes
    | none =>
      match getResDataLang dir loc.defaultLang false with
      | some hRes => some hRes
      | none =>
        match getResDataLang dir (makeLangId (primaryLangId loc.defaultLang) 0) false with
        | some hRes => some hRes
        | none =>
          match getResDataLang dir (makeLangId 9 1) false with
          | some hRes => some hRes
          | none => getResDataLang dir (makeLangId 9 1) true

/-- The last step makes its language of the one before, which is neutral. -/
def getResourceLangEx (dir : Languages) (lang : ℕ) : Option ℕ :=
  match getResDataLang dir lang false with
  | some hRes => some hRes
  | none =>
    let lang := makeLangId (primaryLangId lang) 0
    match getResDataLang dir lang false with
    | some hRes => some hRes
    | none =>
      let lang := makeLangId 0 0
      match getResDataLang dir lang false with
      | some hRes => some hRes
      | none =>
        let lang := makeLangId (primaryLangId lang) 0
        getResDataLang dir lang false

/-! ## findResource -/

inductive NotFound where
  | type
  | name
deriving DecidableEq, Repr

/-- `FindResource` asks for no language of its own. -/
def isNeutral (lang : ℕ) : Bool :=
  lang = makeLangId 0 0 || lang = makeLangId 0 1 || lang = makeLangId 0 2 || lang = makeLangId 0 3

/-- What `findResourceA` and `findResourceW` do once the type is a number or a string. -/
def findResource (loc : Locale) (root : Types) (lpszType lpszName : ResName) (lang : ℕ) :
    Except NotFound (Option ℕ) :=
  match getResSubDirW loc root lpszType with
  | none => .error .type
  | some (_, names) =>
    match getResSubDirW loc names lpszName with
    | none => .error .name
    | some (_, languages) =>
      .ok (if isNeutral lang then getResourceLang loc languages
        else getResourceLangEx languages lang)

/-- `ResType`; a type without a name is the empty string. -/
def resType : List (List ℕ) :=
  ["", "CURSOR", "BITMAP", "ICON", "MENU", "DIALOG", "STRING", "FONTDIR", "FONT", "ACCELERATOR",
    "RCDATA", "MESSAGETABLE", "GROUP_CURSOR", "", "GROUP_ICON", "", "VERSION"].map ascii

def upcase (ch : ℕ) : ℕ := if 0x61 ≤ ch ∧ ch ≤ 0x7a then ch - 0x20 else ch

def stricmp (s t : List ℕ) : Bool := s.map upcase = t.map upcase

/-- The number of a standard type. -/
def stdType (s : List ℕ) : Option ℕ :=
  resType.findIdx? fun typenam =>
    typenam.length ≠ 0 && typenam.length = s.length && stricmp s typenam

/-- The type with which `findResourceA` searches. -/
def typeA : ResName → ResName
  | .str s =>
    match stdType s with
    | some i => .id i
    | none => .str s
  | other => other

/-- The type with which `findResourceW` searches. -/
def typeW (loc : Locale) : ResName → ResName
  | .str s =>
    if s.head? = some 0x23 then .str s
    else
      match stdType (loc.toAscii s) with
      | some i => .id i
      | none => .str s
  | other => other

def findResourceA (loc : Locale) (root : Types) (lpszName lpszType : ResName) (lang : ℕ) :
    Except NotFound (Option ℕ) :=
  findResource loc root ((typeA lpszType).wide loc) (lpszName.wide loc) lang

def findResourceW (loc : Locale) (root : Types) (lpszName lpszType : ResName) (lang : ℕ) :
    Except NotFound (Option ℕ) :=
  findResource loc root (typeW loc lpszType) lpszName lang

end Odin32.ResTree
