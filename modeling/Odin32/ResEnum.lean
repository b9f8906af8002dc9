import Odin32.ResTree
import Mathlib.Tactic.Common

/-! # Resource enumeration

The six `enumResource` functions: the loops over the entries, what the callback is passed and the
buffers in which the names are copied. -/

set_option autoImplicit false

namespace Odin32.ResTree

/-! ## Conversion to ANSI -/

/-- The bytes of a character by its entry in `uni2cp`. -/
def ansiBytes (res : ℕ) : List ℕ := if 0x100 ≤ res then [res / 0x100, res % 0x100] else [res]

/-- The code page of the process. -/
structure CodePage extends Locale where
  uni2cp : ℕ → ℕ
  isDBCSEnv : Bool
  isDBCSLeadByte : ℕ → Bool
  single : isDBCSEnv = false → ∀ ch, uni2cp ch < 0x100
  nonzero : ∀ ch, ch ≠ 0 → uni2cp ch % 0x100 ≠ 0
  lead : ∀ ch, 0x100 ≤ uni2cp ch → isDBCSLeadByte (uni2cp ch / 0x100) = true
  notLead : ∀ ch, uni2cp ch < 0x100 → isDBCSLeadByte (uni2cp ch) = false
  toAscii_eq : ∀ s, toAscii s = s.flatMap fun ch => ansiBytes (uni2cp ch)

/-- The memory at the characters of a name. -/
def NameString.text (str : NameString) (i : ℕ) : ℕ :=
  (str.chars[i]?).getD (str.behind (i - str.chars.length))

/-- The bytes of some characters. -/
def CodePage.convert (cp : CodePage) (s : List ℕ) : List ℕ :=
  s.flatMap fun ch => ansiBytes (cp.uni2cp ch)

def lstrlenWtoA (cp : CodePage) (s : List ℕ) : ℕ :=
  if cp.isDBCSEnv then (cp.convert s).length else s.length

/-- `wcstombs` of a string that ends with a 0: what it writes in so many bytes. -/
def wcstombs (cp : CodePage) (src : ℕ → ℕ) : ℕ → ℕ → List ℕ
  | 0, _ => []
  | 1, i =>
    if src i = 0 then [0]
    else if 0x100 ≤ cp.uni2cp (src i) then []
    else [cp.uni2cp (src i)]
  | len + 2, i =>
    if src i = 0 then [0]
    else if 0x100 ≤ cp.uni2cp (src i) then
      cp.uni2cp (src i) / 0x100 :: cp.uni2cp (src i) % 0x100 :: wcstombs cp src len (i + 1)
    else cp.uni2cp (src i) :: wcstombs cp src (len + 1) (i + 1)

/-- Whether the string ends with a lead byte. -/
def broken (isDBCSLeadByte : ℕ → Bool) : List ℕ → Bool
  | [] => false
  | [ch] => isDBCSLeadByte ch
  | ch :: trail :: rest =>
    if isDBCSLeadByte ch then broken isDBCSLeadByte rest
    else broken isDBCSLeadByte (trail :: rest)

/-- `lstrtrunc` of what stands before the last byte of the buffer. -/
def lstrtrunc (cp : CodePage) (astring : List ℕ) : List ℕ :=
  if cp.isDBCSEnv && broken cp.isDBCSLeadByte astring then astring.dropLast else astring

/-- `lstrcpynWtoA`: the string in the buffer afterwards. -/
def lstrcpynWtoA (cp : CodePage) (ustring : ℕ → ℕ) (length : ℕ) : List ℕ :=
  let out := wcstombs cp ustring length 0
  let astring := (out.take (length - 1)).takeWhile fun ch => ch ≠ 0
  if out.getLast? = some 0 ∧ out.length < length then astring else lstrtrunc cp astring

/-! ## The loops -/

/-- An entry of a directory, by a name or an id. -/
inductive Entry where
  | named (str : NameString)
  | id (n : ℕ)

def Directory.entries {α : Type} (dir : Directory α) : List Entry :=
  dir.named.map (fun e => .named e.1) ++ dir.ids.map fun e => .id e.1

/-- What the callback is passed: an id, or a pointer to this memory. -/
inductive Passed where
  | id (n : ℕ)
  | str (text : ℕ → ℕ)

/-- A call, with the bytes of the buffer made for it and those that were written there. -/
structure Call where
  passed : Passed
  room : ℕ
  written : ℕ

/-- The calls and `fRet` at the end; none when it traps. -/
structure Run where
  calls : List Call
  fRet : Option ℤ

/-- What is done for an entry before the callback. -/
inductive Prepared where
  | call (c : Call) (cch : ℕ)
  | refused
  | trap

/-- The loop from entry `i` on; `cch` is the buffer that is kept, and `answers` are those of the
callback, call by call. -/
def enumLoop (prepare : ℕ → ℕ → Entry → Prepared) (answers : ℕ → ℤ) :
    List Entry → ℕ → ℕ → ℤ → Run
  | [], _, _, fRet => ⟨[], some fRet⟩
  | e :: rest, i, cch, fRet =>
    if fRet = 0 then ⟨[], some fRet⟩
    else
      match prepare i cch e with
      | .trap => ⟨[], none⟩
      | .refused => ⟨[], some 0⟩
      | .call c cch =>
        let later := enumLoop prepare answers rest (i + 1) cch (answers i)
        ⟨c :: later.calls, later.fRet⟩

/-- `fRet > 0 ? TRUE : FALSE` -/
def Run.close (run : Run) : Run :=
  { run with fRet := run.fRet.map fun fRet => if 0 < fRet then 1 else 0 }

/-- A string with the 0 behind it. -/
def textOf (s : List ℕ) (i : ℕ) : ℕ := s.getD i 0

/-- The converted name in a buffer, cut at its length. -/
def ansiName (cp : CodePage) (str : NameString) : ℕ → ℕ :=
  let len := lstrlenWtoA cp str.chars
  textOf ((lstrcpynWtoA cp str.text (len + 1)).take len)

/-- A name with a buffer of its own: `text` is what the callback is passed. `mallocs` says which
allocations succeed; without memory the copy traps. -/
def prepareCopy (mallocs : ℕ → Bool) (text : NameString → ℕ → ℕ) (size : NameString → ℕ)
    (i cch : ℕ) : Entry → Prepared
  | .id n => .call ⟨.id n, 0, 0⟩ cch
  | .named str => if mallocs i then .call ⟨.str (text str), size str, size str⟩ cch else .trap

def sizeW (str : NameString) : ℕ := (str.chars.length + 1) * 2

def prepareTypeA (cp : CodePage) (mallocs : ℕ → Bool) : ℕ → ℕ → Entry → Prepared :=
  prepareCopy mallocs (ansiName cp) fun pstring => lstrlenWtoA cp pstring.chars + 1

/-- The callback is passed the name in the image, not the copy. -/
def prepareTypeW (mallocs : ℕ → Bool) : ℕ → ℕ → Entry → Prepared :=
  prepareCopy mallocs NameString.text sizeW

def prepareNameW (mallocs : ℕ → Bool) : ℕ → ℕ → Entry → Prepared :=
  prepareCopy mallocs (fun str => textOf str.chars) sizeW

/-- The buffer is kept from name to name, and grows by the length in characters. -/
def prepareNameA (cp : CodePage) (mallocs : ℕ → Bool) (i cch : ℕ) : Entry → Prepared
  | .id n => .call ⟨.id n, 0, 0⟩ cch
  | .named pResDirString =>
    let len := lstrlenWtoA cp pResDirString.chars
    if cch ≤ pResDirString.chars.length then
      let cch := max (pResDirString.chars.length + 1) 32
      if mallocs i then .call ⟨.str (ansiName cp pResDirString), cch, len + 1⟩ cch else .refused
    else .call ⟨.str (ansiName cp pResDirString), cch, len + 1⟩ cch

section Functions
variable (cp : CodePage) (root : Types) (mallocs : ℕ → Bool) (answers : ℕ → ℤ)

/-- `fRet` is what the stack holds. -/
def enumResourceTypesA (fRet : ℤ) : Run :=
  (enumLoop (prepareTypeA cp mallocs) answers root.entries 0 0 fRet).close

def enumResourceTypesW (fRet : ℤ) : Run :=
  (enumLoop (prepareTypeW mallocs) answers root.entries 0 0 fRet).close

/-- What is passed for the type is below 0xc0000000. -/
def isBelow : ResName → Bool
  | .getFirst => false
  | .nonsense => false
  | _ => true

def enumResourceNamesA (lpszType : ResName) : Run :=
  if isBelow lpszType = false then ⟨[], some 0⟩
  else
    match getResSubDirA cp.toLocale root lpszType with
    | none => ⟨[], some 0⟩
    | some (_, pResDirOurType) =>
      (enumLoop (prepareNameA cp mallocs) answers pResDirOurType.entries 0 0 1).close

def enumResourceNamesW (lpszType : ResName) : Run :=
  if isBelow lpszType = false then ⟨[], some 0⟩
  else
    match getResSubDirW cp.toLocale root lpszType with
    | none => ⟨[], some 0⟩
    | some (_, pResDirOurType) =>
      (enumLoop (prepareNameW mallocs) answers pResDirOurType.entries 0 0 1).close

/-- The loop over the languages; the flag is set by the calls only. -/
def enumLangs : List ℕ → ℕ → ℤ → Run
  | [], _, fRet => ⟨[], some fRet⟩
  | n :: rest, i, _ =>
    if answers i = 0 then ⟨[⟨.id n, 0, 0⟩], some (answers i)⟩
    else
      let later := enumLangs rest (i + 1) (answers i)
      ⟨⟨.id n, 0, 0⟩ :: later.calls, later.fRet⟩

def enumResourceLanguagesA (lpszType lpszName : ResName) (fRet : ℤ) : Run :=
  match getResSubDirA cp.toLocale root lpszType with
  | none => ⟨[], some 0⟩
  | some (_, names) =>
    match getResSubDirA cp.toLocale names lpszName with
    | none => ⟨[], some 0⟩
    | some (_, languages) => enumLangs answers (languages.ids.map Prod.fst) 0 fRet

def enumResourceLanguagesW (lpszType lpszName : ResName) (fRet : ℤ) : Run :=
  match getResSubDirW cp.toLocale root lpszType with
  | none => ⟨[], some 0⟩
  | some (_, names) =>
    match getResSubDirW cp.toLocale names lpszName with
    | none => ⟨[], some 0⟩
    | some (_, languages) => enumLangs answers (languages.ids.map Prod.fst) 0 fRet

end Functions

end Odin32.ResTree
