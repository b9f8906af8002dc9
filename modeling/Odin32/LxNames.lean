import Odin32.ByteTable
import Odin32.Word

/-! # Names in the virtual LX file

The table of imported modules and the table of imported procedures, as `addModule` and
`addImportFunctionName` of `Pe2Lx` build them, with the comparisons of `stricmp.c` and the
list of names that are changed. Whether `CHAR` is signed is left to the compiler. -/

set_option autoImplicit false

namespace Odin32.LxNames
open ByteMemory ByteTable Word

/-- The characters of a C string. -/
abbrev CStr := {s : List UInt8 // (0 : UInt8) ∉ s}

def ascii (s : String) : List UInt8 := s.toList.map fun c => UInt8.ofNat c.toNat

def upcase (ch : UInt8) : UInt8 := if 0x61 ≤ ch ∧ ch ≤ 0x7a then ch - 0x20 else ch

def stricmp (psz1 psz2 : List UInt8) : Bool := decide (psz1.map upcase = psz2.map upcase)

/-- `strnicmp` of the characters at `a` against a string: whether it answers zero. The last
difference is the answer, and before the first one that is whatever `iRet` held. -/
def strnicmp (m : Mem) : Bool → ℕ → List UInt8 → ℕ → Bool
  | last, _, _, 0 => last
  | _, a, [], _ + 1 => decide (m a = 0)
  | _, a, ch :: psz2, cch + 1 =>
    if upcase (m a) = upcase ch then
      if m a = 0 then true else strnicmp m true (a + 1) psz2 cch
    else false

/-- The value of a `CHAR` is below zero. -/
def negative (signed : Bool) (ch : UInt8) : Prop := signed = true ∧ 0x80 ≤ ch

instance (signed : Bool) (ch : UInt8) : Decidable (negative signed ch) :=
  inferInstanceAs (Decidable (_ ∧ _))

/-- The value of a `CHAR` as a count of characters. -/
def charToSize (signed : Bool) (ch : UInt8) : ℕ :=
  if negative signed ch then 0xffffff00 + ch.toNat else ch.toNat

/-- The offset behind a record whose length is a `CHAR`. -/
def skipRecord (signed : Bool) (ch : UInt8) (offModule : ℕ) : ℕ :=
  if negative signed ch then u32 (offModule + 1 + (0xffffff00 + ch.toNat))
  else offModule + (1 + ch.toNat)

def paLieList : List (List UInt8 × List UInt8) :=
  [("NETAPI32", "WNETAP32"), ("NETAPI32.DLL", "WNETAP32"), ("OLE32", "OLE32OS2"),
    ("OLE32.DLL", "OLE32OS2"), ("OLEAUT32.DLL", "OLAUTOS2"), ("OLEAUT32", "OLAUTOS2"),
    ("OPENGL", "OPENGL32"), ("OPENGL.DLL", "OPENGL32"), ("CRTDLL", "CRTDLL32"),
    ("CRTDLL.DLL", "CRTDLL32"), ("MCICDA.DRV", "MCICDA.DLL"),
    ("WINSPOOL.DRV", "WINSPOOL.DLL")].map fun e => (ascii e.1, ascii e.2)

/-- The options that bear on module names. -/
structure Options where
  hasCustomDll : Bool := false
  pszCustomDllExclude : Option (List UInt8) := none
  /-- The byte in front of `pszCustomDllExclude`. -/
  before : UInt8 := 0

/-- `strstr`: what stands in front of the first occurrence, and what behind it. -/
def strstr : List UInt8 → List UInt8 → List UInt8 → Option (List UInt8 × List UInt8)
  | front, text, psz =>
    if psz <+: text then some (front, text.drop psz.length)
    else
      match text with
      | [] => none
      | ch :: text => strstr (front ++ [ch]) text psz

def semicolon : UInt8 := 0x3b

def isCustomDllExcluded (opt : Options) (pszModuleName : List UInt8) : Bool :=
  match opt.pszCustomDllExclude with
  | none => false
  | some exclude =>
    match strstr [] exclude pszModuleName with
    | none => false
    | some (front, rest) =>
      decide (front.getLast?.getD opt.before = semicolon ∧ rest.head?.getD 0 = semicolon)

def queryOdin32ModuleName (opt : Options) (pszWin32ModuleName : List UInt8) : List UInt8 :=
  if opt.hasCustomDll ∧ ¬isCustomDllExcluded opt pszWin32ModuleName then pszWin32ModuleName
  else
    match paLieList.find? fun e => stricmp e.1 pszWin32ModuleName with
    | some e => e.2
    | none => pszWin32ModuleName

/-- What a call finds beside the tables: whether there is memory if it asks for some, and
whether `iRet` of an empty comparison happens to be zero. -/
structure Env where
  room : Bool
  last : Bool

inductive Stop where
  | hangs
  | notEnoughMemory
  | invalidParameter
deriving DecidableEq, Repr

/-- The end of the search of `addModule`. -/
inductive Search where
  | found (ulModuleOrdinal : ℕ)
  | passed (offModule ulModuleOrdinal : ℕ)
  | running
deriving DecidableEq, Repr

/-- A table of names, the offset being that of the next one. -/
structure NameTable where
  block : Block
  offCur : ℕ

/-- The search of `addModule`. An offset that is met again is met forever, so that a search
that takes more rounds than there are offsets has no end. -/
def findModule (signed last : Bool) (names : NameTable) (pszModuleName : List UInt8) :
    ℕ → ℕ → ℕ → Search
  | 0, _, _ => .running
  | rounds + 1, offModule, ulModuleOrdinal =>
    if names.offCur ≤ offModule then .passed offModule ulModuleOrdinal
    else if strnicmp names.block.bytes last (offModule + 1) pszModuleName
        (charToSize signed (names.block.bytes offModule)) then .found ulModuleOrdinal
    else findModule signed last names pszModuleName rounds
      (skipRecord signed (names.block.bytes offModule) offModule) (ulModuleOrdinal + 1)

/-- What `addModule` returns, with where its search ended if it found nothing. -/
structure ModuleAnswer where
  ulModuleOrdinal : ℕ
  passed : Option ℕ
deriving DecidableEq, Repr

def addModule (opt : Options) (signed : Bool) (env : Env) (names : NameTable)
    (pszModuleName : CStr) : Except Stop (ModuleAnswer × NameTable) :=
  let odinName := queryOdin32ModuleName opt pszModuleName.val
  let cchModuleName := min odinName.length 255
  match findModule signed env.last names odinName (names.offCur + 1) 0 1 with
  | .running => .error .hangs
  | .found ulModuleOrdinal => .ok (⟨ulModuleOrdinal, none⟩, names)
  | .passed offModule ulModuleOrdinal =>
    match names.block.allocateMore (names.offCur + 1 + cchModuleName) (1 + cchModuleName)
        (1 + cchModuleName) env.room with
    | none => .error .notEnoughMemory
    | some block => .ok (⟨ulModuleOrdinal, some offModule⟩,
        { block := block.put names.offCur
            (UInt8.ofNat cchModuleName :: odinName.take cchModuleName)
          offCur := names.offCur + (cchModuleName + 1) })

/-- Where the next procedure name goes. The first entry of the table is a null entry. -/
def nextName (names : NameTable) : ℕ := if names.offCur = 0 then 1 else names.offCur

/-- `addImportFunctionName`: the offset of the name it adds. -/
def addImportFunctionName (room : Bool) (names : NameTable) (pszFnName : CStr) :
    Except Stop (ℕ × NameTable) :=
  let cchFnName := min pszFnName.val.length 127
  match names.block.allocateMore (names.offCur + cchFnName + 1) 0x1000 0x1000 room with
  | none => .error .notEnoughMemory
  | some block =>
    let block := if names.offCur = 0 then block.put 0 [0] else block
    .ok (nextName names,
      { block := block.put (nextName names)
          (UInt8.ofNat cchFnName :: pszFnName.val.take cchFnName)
        offCur := nextName names + (1 + cchFnName) })

theorem addImportFunctionName_fst {room : Bool} {names : NameTable} {name : CStr}
    {r : ℕ × NameTable} (done : addImportFunctionName room names name = .ok r) :
    r.1 = nextName names := by
  simp only [addImportFunctionName] at done
  cases grown : names.block.allocateMore (names.offCur + min name.val.length 127 + 1) 0x1000 0x1000
      room with
  | none => rw [grown] at done; cases done
  | some block =>
    rw [grown] at done
    rw [← Except.ok.inj done]

end Odin32.LxNames
