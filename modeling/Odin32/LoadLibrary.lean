import Odin32.DllOrder
import Odin32.ImageTls

/-! # LoadLibraryEx

A load is one call here. The object of a DLL is put in the list, its TLS index is allocated,
its imports are loaded one after the other, and its entry point is called. Where one of
these fails the object is deleted. -/

set_option autoImplicit false

namespace Odin32.LoadLibrary

open DllList ImageTls

structure Import where
  name : String
  /-- The section of its import addresses is found. -/
  section_ : Bool
  deriving DecidableEq, Repr

/-- What the file of an image decides about its load. The imports are those `processImports`
gets to: it stops without a failure where there is no table of thunks. -/
structure File where
  isDll : Bool
  /-- Nothing is wrong with the headers and the sections. -/
  headers : Bool
  /-- Nothing is wrong with the fixups, the exports and the TLS directory. -/
  directories : Bool
  tlsAddress : Option (List ℕ)
  sizeOfZeroFill : ℕ
  /-- The names of the modules it imports are all found. -/
  moduleNames : Bool
  imports : List Import
  entryPoint : Bool
  /-- What the entry point gives for `DLL_PROCESS_ATTACH`. -/
  dllMain : Bool
  deriving DecidableEq, Repr

structure Flags where
  asDatafile : Bool := false
  dontResolveDllReferences : Bool := false

def Flags.disableLibraryCalls (flags : Flags) : Bool :=
  flags.asDatafile || flags.dontResolveDllReferences

/-- What a load finds: the files by the names of their modules, the name of the executable,
and for which images there is memory. `thread` calls it. -/
structure Env where
  files : String → Option File
  exe : Option String
  thread : ℕ
  memory : ℕ → Bool

structure System where
  loader : Loader
  szModule : Dll → String
  image : Dll → Image
  process : Process

namespace System

def findModule (s : System) (name : String) : Option Dll :=
  s.loader.head.find? fun dll => s.szModule dll = name

def onLoader (f : Loader → Except Fault Loader) (s : System) : Except Fault System := do
  let loader ← f s.loader
  pure { s with loader := loader }

end System

variable (env : Env)

def newImage (d : Dll) (fSkipEntryCalls : Bool) : Image :=
  { hinstance := d, tlsAddress := none, sizeOfZeroFill := 0, dllEntryPoint := false
    fSkipEntryCalls := fSkipEntryCalls, errorState := 0 }

/-- `new Win32PeLdrDll`. -/
def construct (fuel : ℕ) (parent : Option Dll) (name : String) (flags : Flags) (s : System) :
    Except Fault System := do
  let d := s.loader.created
  let loader := { s.loader.set d (newDll flags.disableLibraryCalls) with created := d + 1 }
  let loader ← setUnloadOrder fuel parent d loader
  pure { s with
    loader := loader
    szModule := Function.update s.szModule d name
    image := Function.update s.image d (newImage d flags.disableLibraryCalls) }

/-- `Win32DllBase::~Win32DllBase`. -/
def delete (d : Dll) (s : System) : Except Fault System := do
  let object ← s.loader.get d
  let loader ← DllList.delete d s.loader
  let errorState := if object.errorState || object.fUnloaded then errorInternal else 0
  pure { s with
    loader := loader
    process := s.process.destroy env.thread { s.image d with errorState := errorState } }

/-- The imports of a DLL, bound in turn. The answer is `FALSE` where one of them cannot be
loaded, or has no section. -/
def processImports (load : String → System → Except Fault (Option Dll × System)) (fuel : ℕ)
    (d : Dll) : List Import → System → Except Fault (Bool × System)
  | [], s => .ok (true, s)
  | import_ :: rest, s => do
    let (bound, s) ← match s.findModule import_.name with
      | some dll => do
        let s ← s.onLoader (addRef dll)
        pure (some (some dll), s)
      | none =>
        if env.exe = some import_.name then pure (some none, s)
        else do
          let (dll, s) ← load import_.name s
          pure (dll.map some, s)
    match bound with
    | none => pure (false, s)
    | some dll => do
      let s ← match dll with
        | some dll => s.onLoader (bindImport fuel d dll)
        | none => pure s
      if import_.section_ then processImports load fuel d rest s else pure (false, s)

/-- The failure exit of `init`. -/
def failure (d : Dll) (s : System) : Except Fault (Bool × System) := do
  let object ← s.loader.get d
  pure (false, { s with loader := s.loader.set d { object with errorState := true } })

/-- The TLS index of a DLL is allocated, and the storage of the thread that loads it. -/
def tlsInit (d : Dll) (file : File) (flags : Flags) (s : System) : System :=
  let (image, process) := s.process.tlsAlloc env.thread
    { s.image d with
      tlsAddress := if flags.asDatafile then none else file.tlsAddress
      sizeOfZeroFill := file.sizeOfZeroFill
      dllEntryPoint := file.isDll && file.entryPoint }
  let process := process.tlsAttachThread env.thread env.memory image
  { s with
    image := Function.update s.image d image
    process := { process with images := image :: process.images } }

def init (load : String → System → Except Fault (Option Dll × System)) (fuel : ℕ) (d : Dll)
    (file : File) (flags : Flags) (s : System) : Except Fault (Bool × System) :=
  if file.headers && (flags.asDatafile || file.directories) then
    let s := tlsInit env d file flags s
    if flags.disableLibraryCalls then .ok (true, s)
    else if file.moduleNames then do
      let (rc, s) ← processImports env load fuel d file.imports s
      if rc then pure (true, s) else failure d s
    else failure d s
  else failure d s

def attachProcess (d : Dll) (file : File) (s : System) : Except Fault (Bool × System) := do
  let object ← s.loader.get d
  let s ← s.onLoader (DllList.attachProcess d)
  if object.fAttachedToProcess || object.fSkipEntryCalls || !(s.image d).dllEntryPoint then
    pure (true, s)
  else pure (file.dllMain, s)

/-- What `loadDll` and `LoadLibraryExA` have in common: a new object, `init`, `AddRef` and
`attachProcess`, and the object is deleted where one fails. -/
def loadPeDll (load : Dll → String → System → Except Fault (Option Dll × System)) (fuel : ℕ)
    (parent : Option Dll) (name : String) (file : File) (flags : Flags) (s : System) :
    Except Fault (Option Dll × System) := do
  let d := s.loader.created
  let s ← construct fuel parent name flags s
  let (rc, s) ← init env (load d) fuel d file flags s
  if rc then do
    let s ← s.onLoader (addRef d)
    let (rc, s) ← attachProcess d file s
    if rc then pure (some d, s)
    else do
      let s ← delete env d s
      pure (none, s)
  else do
    let s ← delete env d s
    pure (none, s)

/-- `Win32PeLdrImage::loadDll`, called for the image `parent`, whose `errorState` is set by its
own `init` when this gives nothing. -/
def loadDll : ℕ → Dll → String → System → Except Fault (Option Dll × System)
  | 0, _, _, _ => .error .outOfFuel
  | fuel + 1, parent, name, s =>
    match env.files name with
    | none => .ok (none, s)
    | some file => loadPeDll env (loadDll fuel) fuel (some parent) name file {} s

inductive Handle where
  | exe
  | dll (d : Dll)
  deriving DecidableEq, Repr

/-- An executable is loaded as a data file. -/
def Flags.of (flags : Flags) (file : File) : Flags := if file.isDll then flags else ⟨true, true⟩

def loadLibraryExA (fuel : ℕ) (name : String) (flags : Flags) (s : System) :
    Except Fault (Option Handle × System) :=
  if env.exe = some name then .ok (some .exe, s)
  else match s.findModule name with
    | some dll => do
      let s ← s.onLoader (incDynamicLib dll)
      let s ← s.onLoader (addRef dll)
      pure (some (.dll dll), s)
    | none =>
      match env.files name with
      | none => .ok (none, s)
      | some file => do
        let (dll, s) ← loadPeDll env (loadDll env fuel) fuel none name file (flags.of file) s
        match dll with
        | some dll => do
          let s ← s.onLoader (incDynamicLib dll)
          pure (some (.dll dll), s)
        | none => pure (none, s)

/-! ## What is asked -/

/-- The list, the counts and the queues of the modules in it, and the TLS indices are as they
were. -/
structure Restored (s t : System) : Prop where
  head : t.loader.head = s.loader.head
  modules : ∀ d ∈ s.loader.head, ∃ before after, s.loader.object d = some before ∧
    t.loader.object d = some after ∧ after.referenced = before.referenced ∧
    after.nrDynamicLibRef = before.nrDynamicLibRef ∧ after.loadedDlls = before.loadedDlls
  tls : ∀ i, t.process.pdb.allocated i = s.process.pdb.allocated i

/-- The name is that of the executable, or of a DLL whose load has begun and is going to
fail. Binding it leaves nothing behind. -/
def Passing (s : System) (loading : List String) (name : String) : Prop :=
  name ∈ loading ∨ s.findModule name = none ∧ env.exe = some name

instance decidablePassing (s : System) (loading : List String) (name : String) :
    Decidable (Passing env s loading name) := inferInstanceAs (Decidable (_ ∨ _))

/-- The first import that fails, or that leaves something behind. -/
def stopsAt (s : System) (loading : List String) (imports : List Import) : Option Import :=
  imports.find? fun import_ => !(decide (Passing env s loading import_.name) && import_.section_)

/-- The load fails before anything is bound that stays. The first list of files are those that
are given up after their TLS index was allocated, the last one the file whose entry point
refuses. -/
inductive Falls (s : System) : List String → String → List File → Option File → Prop where
  | notFound {loading : List String} {name : String} (none_ : env.files name = none) :
    Falls s loading name [] none
  | headers {loading : List String} {name : String} {file : File}
    (some_ : env.files name = some file) (bad : (file.headers && file.directories) = false) :
    Falls s loading name [] none
  | moduleNames {loading : List String} {name : String} {file : File}
    (some_ : env.files name = some file) (good : (file.headers && file.directories) = true)
    (bad : file.moduleNames = false) : Falls s loading name [file] none
  | section_ {loading : List String} {name : String} {file : File} {import_ : Import}
    (some_ : env.files name = some file) (good : (file.headers && file.directories) = true)
    (names : file.moduleNames = true) (stops : stopsAt env s loading file.imports = some import_)
    (passing : Passing env s loading import_.name) : Falls s loading name [file] none
  | import_ {loading : List String} {name : String} {file : File} {import_ : Import}
    {leaks : List File} {leaf : Option File}
    (some_ : env.files name = some file) (good : (file.headers && file.directories) = true)
    (names : file.moduleNames = true) (stops : stopsAt env s loading file.imports = some import_)
    (passing : ¬ Passing env s loading import_.name) (other : import_.name ≠ name)
    (absent : s.findModule import_.name = none)
    (below : Falls s (name :: loading) import_.name leaks leaf) :
    Falls s loading name (file :: leaks) leaf
  | entryPoint {loading : List String} {name : String} {file : File}
    (some_ : env.files name = some file) (good : (file.headers && file.directories) = true)
    (names : file.moduleNames = true) (stops : stopsAt env s loading file.imports = none)
    (entry : (file.isDll && file.entryPoint) = true) (refuses : file.dllMain = false) :
    Falls s loading name [] (some file)

/-- Nothing stays behind of a load that fails. -/
def Undone (s : System) (name : String) (flags : Flags) : Prop :=
  (∃ file, env.files name = some file ∧ (flags.of file).disableLibraryCalls = true) ∨
  ∃ leaks leaf, Falls env s [] name leaks leaf ∧
    (∀ file ∈ leaks, file.tlsAddress.isSome → ∀ i < Tls.tlsMinimumAvailable,
      s.process.pdb.allocated i = true) ∧
    ∀ file, leaf = some file → file.tlsAddress.isSome →
      (Tls.tlsAlloc s.process.pdb newTeb).1 ≠ 32

end Odin32.LoadLibrary
