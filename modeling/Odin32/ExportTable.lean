import Odin32.BinarySearch
import Odin32.LxNames

/-! # Exports of a PE image

`findApi` and `findForwarder`: the search for an export by its name or its ordinal, and what the
entry of the address table leads to. Forwarders go on in another module, with no bound on how
often they do. -/

set_option autoImplicit false

namespace Odin32.ExportTable
open Odin32.Word Odin32.BinarySearch
open Odin32.LxNames (upcase stricmp ascii)

/-- `strcmp`; characters are compared unsigned. -/
def strcmp (psz1 psz2 : List UInt8) : Ordering := compare psz1 psz2

instance : Std.TransCmp strcmp :=
  inferInstanceAs (Std.TransCmp fun psz1 psz2 : List UInt8 => compare psz1 psz2)

instance : Std.LawfulEqCmp strcmp :=
  inferInstanceAs (Std.LawfulEqCmp fun psz1 psz2 : List UInt8 => compare psz1 psz2)

/-- What `IMAGE_EXPORT_DIRECTORY` tells, and the tables it points to. -/
structure Directory where
  /-- `Base` -/
  base : ℕ
  numberOfFunctions : ℕ
  numberOfNames : ℕ
  /-- The string of each entry of `AddressOfNames`. -/
  names : ℕ → List UInt8
  /-- The entries of `AddressOfNameOrdinals`. -/
  ordinals : ℕ → ℕ
  /-- The entries are of type `USHORT`. -/
  short : ∀ i, ordinals i < 0x10000
  word : base < 0x100000000
  /-- The name table lies in the address space. -/
  fits : 4 * numberOfNames ≤ 0x100000000

structure Image where
  hinstance : ℕ
  /-- `VirtualAddress` and `Size` of the export directory. -/
  virtualAddress : ℕ
  size : ℕ
  /-- There is none where `VirtualAddress` is 0. -/
  exportDir : Option Directory
  /-- The words from `AddressOfFunctions` on. -/
  paAddress : ℕ → ℕ
  /-- The C string at an RVA. -/
  string : ℕ → List UInt8
  loaded : 0 < hinstance ∧ hinstance < 0x100000000

/-- A search by name, or with `pszName` NULL. -/
inductive Query where
  | name (pszName : List UInt8)
  | ordinal (ulOrdinal : ℕ)
deriving DecidableEq, Repr

/-- The comparison of an entry of the name table, counted from 1. -/
def Directory.diff (ped : Directory) (pszName : List UInt8) (i : ℕ) : Ordering :=
  strcmp (ped.names (i - 1)) pszName

/-- `iExpOrdinal`: the index into the address table. -/
def Directory.findIndex (ped : Directory) : Query → Option ℕ
  | .name pszName =>
    match search (ped.diff pszName) (ped.numberOfNames + 1) 1 ped.numberOfNames with
    | none => none
    | some i => some (ped.ordinals (i - 1))
  | .ordinal ulOrdinal =>
    if add32 ped.base (max ped.numberOfNames ped.numberOfFunctions) ≤ ulOrdinal ∨
        ulOrdinal < ped.base then none
    else some (ulOrdinal - ped.base)

namespace Image

/-- The index that a search in the image comes to. -/
def findIndex (img : Image) (q : Query) : Option ℕ :=
  match img.exportDir with
  | none => none
  | some ped => ped.findIndex q

def getPointerFromRVA (img : Image) (ulRVA : ℕ) : ℕ := add32 img.hinstance ulRVA

def getRVAFromPointer (img : Image) (pv : ℕ) : ℕ := sub32 pv img.hinstance

/-- The RVA is taken as one of a forwarder string. -/
def isForwarder (img : Image) (uRVAExport : ℕ) : Bool :=
  img.virtualAddress < uRVAExport && uRVAExport < add32 img.virtualAddress img.size

end Image

/-! ## Forwarders -/

structure Module where
  szModule : List UInt8
  image : Image

def osLibStripPath (path : List UInt8) : List UInt8 :=
  (path.reverse.takeWhile fun ch => ch ≠ 0x5c && ch ≠ 0x2f && ch ≠ 0x3a).reverse

/-- The name that `findModule` looks for. -/
def moduleName (dllname : List UInt8) : List UInt8 :=
  let szDllName := (osLibStripPath dllname).map upcase
  match szDllName.dropWhile fun ch => ch ≠ 0x2e with
  | [] => szDllName ++ ascii ".DLL"
  | [_] => szDllName.dropLast
  | _ => szDllName

/-- `Win32DllBase::findModule`: the position in the list of modules. -/
def findModule (modules : List Module) (dllname : List UInt8) : Option ℕ :=
  modules.findIdx? fun mod => stricmp (moduleName dllname) mod.szModule

def isDigit (ch : UInt8) : Bool := 0x30 ≤ ch && ch ≤ 0x39

/-- `atoi` of a string that starts with a digit. -/
def atoi (s : List UInt8) : ℕ :=
  u32 ((s.takeWhile isDigit).foldl (fun n ch => 10 * n + (ch.toNat - 0x30)) 0)

/-- The search for the text behind the dot. -/
def forwardQuery (forwardapi : List UInt8) : Query :=
  let forwardord := if (forwardapi.head?.map isDigit).getD false then atoi forwardapi else 0
  if forwardord ≠ 0 ∨ forwardapi = [0x30] then .ordinal forwardord else .name forwardapi

/-- The buffer for the forwarder string, and the bytes written to it; there is none for an empty
string. -/
def forwardCopy (forward : List UInt8) : Option (ℕ × ℕ) :=
  let iForwardDllLength := forward.length
  if iForwardDllLength = 0 then none else some (iForwardDllLength, iForwardDllLength + 1)

/-- The module and the search that a forwarder string stands for. -/
def forwardTarget (modules : List Module) (forward : List UInt8) : Option (ℕ × Query) :=
  match forward.dropWhile fun ch => ch ≠ 0x2e with
  | [] => none
  | _ :: forwardapi =>
    if forwardapi.length = 0 then none
    else
      match findModule modules (forward.takeWhile fun ch => ch ≠ 0x2e) with
      | none => none
      | some m => some (m, forwardQuery forwardapi)

/-! ## The search -/

/-- The index in the address table of a loaded module. -/
def slotOf (modules : List Module) (m : ℕ) (q : Query) : Option (Module × ℕ) :=
  match modules[m]? with
  | none => none
  | some mod => (mod.image.findIndex q).map fun i => (mod, i)

/-- `findApi` without a new address, and `findForwarder`; the fuel bounds the number of modules
that are gone through, `none` is out of fuel. -/
def findApi (modules : List Module) : ℕ → ℕ → Query → Option ℕ
  | 0, _, _ => none
  | fuel + 1, m, q =>
    match slotOf modules m q with
    | none => some 0
    | some (mod, iExpOrdinal) =>
      let uRVAExport := mod.image.paAddress iExpOrdinal
      if mod.image.isForwarder uRVAExport then
        match forwardTarget modules (mod.image.string uRVAExport) with
        | none => some 0
        | some (m, q) => findApi modules fuel m q
      else some (mod.image.getPointerFromRVA uRVAExport)

/-- The search ends with an address. -/
def Resolves (modules : List Module) (m : ℕ) (q : Query) (address : ℕ) : Prop :=
  ∃ fuel, findApi modules fuel m q = some address

end Odin32.ExportTable
