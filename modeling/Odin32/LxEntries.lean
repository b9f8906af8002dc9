import Odin32.LxNames
import Odin32.LxPages

/-! # The entry table of the virtual LX file

`addEntry`, `addForwarderEntry` and `addLastEntry` of `Pe2Lx`, which put exports into
bundles, and the bundles as a loader of LX files reads them. -/

set_option autoImplicit false

namespace Odin32.LxEntries
open ByteMemory ByteTable Word LxNames LxPages

/-- `EMPTY`, `ENTRY32` and `ENTRYFWD` -/
def typeEmpty : UInt8 := 0
def typeEntry32 : UInt8 := 3
def typeEntryFwd : UInt8 := 4

def e32Export : UInt8 := 1
def fwdOrdinal : UInt8 := 1

/-- The high bit, set in a function ordinal that is a number and not the offset of a name. -/
def flagged (ulFnOrdinal : ℕ) : Prop := ulFnOrdinal / 0x80000000 % 2 = 1

instance (ulFnOrdinal : ℕ) : Decidable (flagged ulFnOrdinal) :=
  inferInstanceAs (Decidable (_ = _))

def setFlag (ulFnOrdinal : ℕ) : ℕ :=
  if flagged ulFnOrdinal then ulFnOrdinal else ulFnOrdinal + 0x80000000

/-- The members of `Pe2Lx` that the tables of exports depend on. -/
structure PeObjects where
  fAllInOneObject : Bool
  paObjects : List LxObject
  /-- `cObjects` is a `USHORT`. -/
  counted : paObjects.length < 0x10000

/-- The first object that ends behind an RVA, from number `iObj` on. -/
def findObject (ulRVA : ℕ) : ℕ → List LxObject → Option (ℕ × LxObject)
  | _, [] => none
  | iObj, o :: rest =>
    if add32 o.ulRVA o.cbVirtual ≤ ulRVA then findObject ulRVA (iObj + 1) rest else some (iObj, o)

/-- The number of an object, counted from one, and the offset into it. -/
def queryObjectAndOffset (pe : PeObjects) (ulRVA : ℕ) : Except Stop (ℕ × ℕ) :=
  if pe.fAllInOneObject then
    match pe.paObjects.head?, pe.paObjects.getLast? with
    | some first, some last =>
      if first.ulRVA ≤ ulRVA ∧ ulRVA ≤ add32 last.ulRVA last.cbVirtual then
        .ok (1, sub32 ulRVA first.ulRVA)
      else .error .invalidParameter
    | _, _ => .error .invalidParameter
  else
    match findObject ulRVA 0 pe.paObjects with
    | none => .error .invalidParameter
    | some (iObj, o) =>
      if ulRVA < o.ulRVA then .error .invalidParameter else .ok (iObj + 1, sub32 ulRVA o.ulRVA)

structure Tables where
  bundles : Block
  offCurEntryBundle : ℕ
  offLastEntryBundle : ℕ
  ulLastOrdinal : ℕ
  fForwarders : Bool
  modules : NameTable
  functions : NameTable

/-- After `initEntry`, with what the tables of imports hold. -/
def Tables.init (fresh : Mem) (modules functions : NameTable) : Tables where
  bundles := Block.none fresh
  offCurEntryBundle := 0
  offLastEntryBundle := 0
  ulLastOrdinal := 0
  fForwarders := false
  modules := modules
  functions := functions

def Tables.put (st : Tables) (off : ℕ) (l : List UInt8) : Tables :=
  { st with bundles := st.bundles.put off l }

/-- Room for the largest bundle with an entry of `cbEntry` bytes. -/
def Tables.reserve (cbEntry : ℕ) (room : Bool) (st : Tables) : Except Stop Tables :=
  match st.bundles.allocateMore (st.offCurEntryBundle + 4 + 2 + cbEntry) 512 256 room with
  | none => .error .notEnoughMemory
  | some bundles => .ok { st with bundles := bundles }

/-- How many of the ordinals below one the next empty bundle skips. -/
def unused (ulOrdinal ulLastOrdinal : ℕ) : ℕ :=
  let unused := sub32 (sub32 ulOrdinal ulLastOrdinal) 1
  if unused < 0x100 then unused else 0xff

def emptyBundle (cnt : ℕ) (st : Tables) : Tables :=
  { st.put st.offCurEntryBundle [UInt8.ofNat cnt, typeEmpty] with
    ulLastOrdinal := add32 st.ulLastOrdinal cnt
    offCurEntryBundle := st.offCurEntryBundle + 2
    offLastEntryBundle := st.offCurEntryBundle + 2 }

/-- Empty bundles up to an ordinal. A round skips an ordinal at least, so that as many rounds
as the ordinal says are enough. -/
def skipOrdinals (cbEntry : ℕ) (room : Bool) (ulOrdinal : ℕ) : ℕ → Tables → Except Stop Tables
  | 0, _ => .error .hangs
  | rounds + 1, st =>
    if add32 st.ulLastOrdinal 1 < ulOrdinal then
      ((emptyBundle (unused ulOrdinal st.ulLastOrdinal) st).reserve cbEntry room).bind
        (skipOrdinals cbEntry room ulOrdinal rounds)
    else .ok st

/-- A new bundle, without entries yet. -/
def newBundle (type : UInt8) (iObj : ℕ) (st : Tables) : Tables :=
  { st.put st.offCurEntryBundle (0 :: type :: le 2 iObj) with
    offLastEntryBundle := st.offCurEntryBundle
    offCurEntryBundle := st.offCurEntryBundle + 4 }

/-- An entry at the end, counted in the current bundle. -/
def putEntry (entry : List UInt8) (ulOrdinal : ℕ) (st : Tables) : Tables :=
  let st := st.put st.offCurEntryBundle entry
  let st := st.put st.offLastEntryBundle [st.bundles.bytes st.offLastEntryBundle + 1]
  { st with
    offCurEntryBundle := st.offCurEntryBundle + entry.length
    ulLastOrdinal := ulOrdinal }

/-- Whether the current bundle takes another entry of a type; an entry that lies in an object
asks for the object too. -/
def joins (type : UInt8) (iObj : Option ℕ) (st : Tables) : Prop :=
  st.offCurEntryBundle ≠ st.offLastEntryBundle ∧
  st.bundles.bytes (st.offLastEntryBundle + 1) = type ∧
  (∀ i ∈ iObj, word st.bundles.bytes (st.offLastEntryBundle + 2) 2 = i) ∧
  st.bundles.bytes st.offLastEntryBundle ≠ 255

instance (type : UInt8) (iObj : Option ℕ) (st : Tables) : Decidable (joins type iObj st) :=
  inferInstanceAs (Decidable (_ ∧ _ ∧ _ ∧ _))

/-- An entry in the current bundle, or in a new one that it does not join. -/
def bundleEntry (type : UInt8) (iObj : Option ℕ) (entry : List UInt8) (ulOrdinal : ℕ)
    (st : Tables) : Tables :=
  putEntry entry ulOrdinal (if joins type iObj st then st else newBundle type (iObj.getD 0) st)

def addEntry (debug : Bool) (pe : PeObjects) (env : Env) (st : Tables) (ulOrdinal ulRVA : ℕ) :
    Except Stop Tables :=
  if debug ∧ (ulOrdinal < add32 st.ulLastOrdinal 1 ∨ 65535 < ulOrdinal) then
    .error .invalidParameter
  else
    (queryObjectAndOffset pe ulRVA).bind fun (iObj, offObject) =>
    (st.reserve 5 env.room).bind fun st =>
    (skipOrdinals 5 env.room ulOrdinal (ulOrdinal + 1) st).bind fun st =>
    .ok (bundleEntry typeEntry32 (some iObj) (e32Export :: le 4 offObject) ulOrdinal st)

def isDigit (ch : UInt8) : Bool := decide (0x30 ≤ ch ∧ ch ≤ 0x39)

/-- The loop that is to convert an ordinal. Nothing in it moves `psz`. -/
def scanDigits (psz : List UInt8) : ℕ → ℕ → Option ℕ
  | 0, _ => none
  | rounds + 1, ulFnOrdinal =>
    match psz with
    | [] => some ulFnOrdinal
    | ch :: _ =>
      if isDigit ch then
        scanDigits psz rounds (sub32 (add32 (u32 (ulFnOrdinal * 10)) ch.toNat) 0x30)
      else some ulFnOrdinal

/-- The function ordinal with its flag, or zero for a name. -/
def forwarderOrdinal (pszFnNameOrOrd : List UInt8) : Except Stop ℕ :=
  match scanDigits pszFnNameOrOrd (pszFnNameOrOrd.length + 1) 0 with
  | none => .error .hangs
  | some ulFnOrdinal => .ok (if pszFnNameOrOrd = [] then setFlag ulFnOrdinal else 0)

def kernel32 : CStr := ⟨ascii "KERNEL32.DLL", by decide⟩

/-- The module of a forwarder, behind the first one, which is always KERNEL32. -/
def forwarderModule (opt : Options) (signed : Bool) (env : Env) (modules : NameTable)
    (pszDllName : CStr) : Except Stop (ModuleAnswer × NameTable) :=
  (if modules.offCur = 0 then (addModule opt signed env modules kernel32).map Prod.snd
    else .ok modules).bind fun modules => addModule opt signed env modules pszDllName

def addForwarderEntry (opt : Options) (signed : Bool) (env : Env) (st : Tables) (ulOrdinal : ℕ)
    (pszDllName pszFnNameOrOrd : CStr) : Except Stop Tables :=
  if ulOrdinal < add32 st.ulLastOrdinal 1 ∨ 65535 < ulOrdinal then .error .invalidParameter
  else
    (Tables.reserve 7 env.room { st with fForwarders := true }).bind fun st =>
    (forwarderOrdinal pszFnNameOrOrd.val).bind fun ulFnOrdinal =>
    (forwarderModule opt signed env st.modules pszDllName).bind fun (answer, modules) =>
    (if flagged ulFnOrdinal then .ok (ulFnOrdinal, st.functions)
      else addImportFunctionName env.room st.functions pszFnNameOrOrd).bind
      fun (ulFnOrdinal, functions) =>
    (skipOrdinals 7 env.room ulOrdinal (ulOrdinal + 1)
      { st with modules := modules, functions := functions }).bind fun st =>
    let flags := if flagged ulFnOrdinal then fwdOrdinal else 0
    .ok (bundleEntry typeEntryFwd none
      (flags :: le 2 answer.ulModuleOrdinal ++ le 4 (ulFnOrdinal % 0x80000000)) ulOrdinal st)

def addLastEntry (room : Bool) (st : Tables) : Except Stop Tables :=
  match st.bundles.allocateMore (st.offCurEntryBundle + 1) 1 1 room with
  | none => .error .notEnoughMemory
  | some bundles =>
    let st := { st with bundles := bundles }
    .ok { st.put st.offCurEntryBundle [0] with
      offCurEntryBundle := st.offCurEntryBundle + 1
      offLastEntryBundle := st.offCurEntryBundle + 1 }

/-- An entry as a loader reads it. -/
inductive Entry where
  | offset32 (flags : UInt8) (obj offset : ℕ)
  | forward (flags : UInt8) (modord value : ℕ)
deriving DecidableEq, Repr

/-- The entries of a bundle, of `size` bytes each, for the ordinals from `ordinal` on. -/
def readEntries (size : ℕ) (read : List UInt8 → Entry) : ℕ → ℕ → List UInt8 → List (ℕ × Entry)
  | 0, _, _ => []
  | cnt + 1, ordinal, l =>
    (ordinal, read (l.take size)) :: readEntries size read cnt (ordinal + 1) (l.drop size)

def readOffset32 (obj : ℕ) (l : List UInt8) : Entry :=
  .offset32 (l.headD 0) obj (ofLe (l.drop 1))

def readForward (l : List UInt8) : Entry :=
  .forward (l.headD 0) (ofLe ((l.drop 1).take 2)) (ofLe (l.drop 3))

/-- The entries of a table, up to the bundle without entries that ends it. A round takes a
byte at least, so that as many rounds as there are bytes are enough. -/
def decode : ℕ → ℕ → List UInt8 → Option (List (ℕ × Entry))
  | 0, _, _ => none
  | _ + 1, _, [] => none
  | rounds + 1, ordinal, cnt :: rest =>
    if cnt = 0 then some []
    else
      match rest with
      | [] => none
      | type :: rest =>
        if type = typeEmpty then decode rounds (ordinal + cnt.toNat) rest
        else if type = typeEntry32 then
          if rest.length < 2 + 5 * cnt.toNat then none
          else (decode rounds (ordinal + cnt.toNat) (rest.drop (2 + 5 * cnt.toNat))).map
            (readEntries 5 (readOffset32 (ofLe (rest.take 2))) cnt.toNat ordinal (rest.drop 2) ++ ·)
        else if type = typeEntryFwd then
          if rest.length < 2 + 7 * cnt.toNat then none
          else (decode rounds (ordinal + cnt.toNat) (rest.drop (2 + 7 * cnt.toNat))).map
            (readEntries 7 readForward cnt.toNat ordinal (rest.drop 2) ++ ·)
        else none

/-- The entries of the table that has been written. -/
def Tables.entries (st : Tables) : Option (List (ℕ × Entry)) :=
  decode st.offCurEntryBundle 1 (slice st.bundles.bytes 0 st.offCurEntryBundle)

end Odin32.LxEntries
