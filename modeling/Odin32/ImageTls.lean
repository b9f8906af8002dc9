import Odin32.Tls

/-! # Implicit thread local storage

An image with a TLS directory takes an index when it is loaded, every thread attached to
it gets a block in that slot, and the destructor of the image gives both back, depending
on how the image was loaded. Loading is two events, because the imports of an image are
loaded between the two: the TLS part of `init`, and the failure of `processImports`. -/

set_option autoImplicit false

namespace Odin32.ImageTls

open Tls

/-- The members of an image that decide its thread local storage. The template is there
when the image has a TLS directory. -/
structure Image where
  hinstance : ℕ
  tlsAddress : Option (List ℕ)
  sizeOfZeroFill : ℕ
  dllEntryPoint : Bool
  fSkipEntryCalls : Bool
  errorState : ℕ
  tlsIndex : ℕ := tlsOutOfIndexes
  deriving DecidableEq, Repr

/-- What a block starts out with: the template, then zeroes. -/
def Image.tlsBlock (image : Image) (template : List ℕ) : List ℕ :=
  template ++ List.replicate image.sizeOfZeroFill 0

def Image.tlsTotalSize (image : Image) (template : List ℕ) : ℕ :=
  template.length + image.sizeOfZeroFill

/-- The process: its indices, the slots of its threads, its images, and the memory that
`VirtualAlloc` gave out. -/
structure Process where
  pdb : Pdb
  teb : ℕ → Teb
  threads : List ℕ
  images : List Image
  blocks : ℕ → Option (List ℕ)
  nextBlock : ℕ

namespace Process

variable (p : Process)

def setTeb (t : ℕ) (teb : Teb) : Process :=
  { p with teb := fun u => if u = t then teb else p.teb u }

/-- `VirtualAlloc` of fresh memory. -/
def virtualAlloc (bytes : List ℕ) : ℕ × Process :=
  (p.nextBlock, { p with
    blocks := fun a => if a = p.nextBlock then some bytes else p.blocks a
    nextBlock := p.nextBlock + 1 })

def virtualFree (address : ℕ) : Process :=
  { p with blocks := fun a => if a = address then none else p.blocks a }

/-- `Win32ImageBase::tlsAlloc`, called by thread `t`. -/
def tlsAlloc (t : ℕ) (image : Image) : Image × Process :=
  match image.tlsAddress with
  | none => (image, p)
  | some _ =>
    let (index, pdb, teb) := Tls.tlsAlloc p.pdb (p.teb t)
    ({ image with tlsIndex := index }, { p.setTeb t teb with pdb := pdb })

def tlsDelete (t : ℕ) (image : Image) : Process :=
  match image.tlsAddress with
  | none => p
  | some _ =>
    if tlsMinimumAvailable ≤ image.tlsIndex then p
    else
      let (_, pdb, teb) := Tls.tlsFree p.pdb (p.teb t) image.tlsIndex
      { p.setTeb t teb with pdb := pdb }

/-- `Win32ImageBase::tlsAttachThread`. `memory` says for which images there is memory. -/
def tlsAttachThread (t : ℕ) (memory : ℕ → Bool) (image : Image) : Process :=
  match image.tlsAddress with
  | none => p
  | some template =>
    if tlsMinimumAvailable ≤ image.tlsIndex then p
    else if memory image.hinstance then
      let (tibmem, p) := p.virtualAlloc (image.tlsBlock template)
      p.setTeb t (Tls.tlsSetValue (p.teb t) image.tlsIndex tibmem).2
    else p

def tlsDetachThread (t : ℕ) (image : Image) : Process :=
  match image.tlsAddress with
  | none => p
  | some _ =>
    let tlsmem := tlsGetValue (p.teb t) image.tlsIndex
    let p := if tlsmem ≠ 0 then p.virtualFree tlsmem else p
    p.setTeb t (Tls.tlsSetValue (p.teb t) image.tlsIndex 0).2

def detachProcess (t : ℕ) (image : Image) : Process :=
  if image.fSkipEntryCalls then p
  else if image.dllEntryPoint = false then p.tlsDetachThread t image
  else (p.tlsDetachThread t image).tlsDelete t image

/-- The destructor of an image. -/
def destroy (t : ℕ) (image : Image) : Process :=
  let p := if image.errorState = 0 then p.detachProcess t image else p
  { p with images := p.images.filter fun other => other.hinstance ≠ image.hinstance }

def find (hinstance : ℕ) : Option Image :=
  p.images.find? fun image => image.hinstance == hinstance

end Process

def errorInternal : ℕ := 1

inductive Op where
  /-- The end of `init`, up to the imports. -/
  | load (t : ℕ) (image : Image) (memory : Bool)
  /-- `processImports` gives `FALSE`, and the image is deleted. -/
  | failLoad (t hinstance : ℕ)
  /-- The image is deleted: its last reference is gone, or its entry point refused. -/
  | unload (t hinstance : ℕ)
  | createThread (t : ℕ) (memory : ℕ → Bool)
  | exitThread (t : ℕ)

def newTeb : Teb := ⟨fun _ => 0⟩

/-- One event, where it can happen at all. -/
def step (p : Process) : Op → Option Process
  | .load t image memory =>
    if t ∈ p.threads ∧ p.find image.hinstance = none then
      let (image, p) := p.tlsAlloc t { image with tlsIndex := tlsOutOfIndexes }
      let p := p.tlsAttachThread t (fun _ => memory) image
      some { p with images := image :: p.images }
    else none
  | .failLoad t hinstance =>
    match p.find hinstance with
    | some image =>
      if t ∈ p.threads then some (p.destroy t { image with errorState := errorInternal }) else none
    | none => none
  | .unload t hinstance =>
    match p.find hinstance with
    | some image => if t ∈ p.threads then some (p.destroy t image) else none
    | none => none
  | .createThread t memory =>
    if t ∈ p.threads then none
    else
      let p := { p.setTeb t newTeb with threads := t :: p.threads }
      some (p.images.foldl (fun p image => p.tlsAttachThread t memory image) p)
  | .exitThread t =>
    if t ∈ p.threads then
      let p := p.images.foldl (fun p image => p.tlsDetachThread t image) p
      some { p with threads := p.threads.filter (· ≠ t) }
    else none

/-- A process with one thread and no image. -/
def newProcess : Process :=
  { pdb := newPdb, teb := fun _ => newTeb, threads := [0], images := []
    blocks := fun _ => none, nextBlock := 1 }

/-! ## What is asked -/

/-- The pairs of an image and a thread attached to it: the thread that loaded it, and the
threads created since. -/
abbrev Attached := Set (ℕ × ℕ)

def attach (p : Process) (attached : Attached) : Op → Attached
  | .load t image _ => insert (image.hinstance, t) attached
  | .failLoad _ hinstance | .unload _ hinstance => {pair | pair ∈ attached ∧ pair.1 ≠ hinstance}
  | .createThread t _ => attached ∪ {pair | (∃ image ∈ p.images, image.hinstance = pair.1) ∧
      pair.2 = t}
  | .exitThread t => {pair | pair ∈ attached ∧ pair.2 ≠ t}

/-- Images with a TLS directory own an allocated index each, no two the same. -/
structure Owned (p : Process) : Prop where
  allocated : ∀ image ∈ p.images, image.tlsAddress.isSome →
    image.tlsIndex < tlsMinimumAvailable ∧ p.pdb.allocated image.tlsIndex = true
  distinct : ∀ image ∈ p.images, ∀ other ∈ p.images, image.tlsAddress.isSome →
    other.tlsAddress.isSome → image.tlsIndex = other.tlsIndex → image = other

/-- The block of an attached thread is in its slot, of the size the directory gives. -/
def HasBlock (p : Process) (image : Image) (t : ℕ) : Prop :=
  ∀ template, image.tlsAddress = some template → ∃ bytes,
    p.blocks ((p.teb t).tlsArray image.tlsIndex) = some bytes ∧
      bytes.length = image.tlsTotalSize template

/-- Every attached thread has its own block. -/
structure Blocks (p : Process) (attached : Attached) : Prop where
  present : ∀ image ∈ p.images, ∀ t, (image.hinstance, t) ∈ attached → HasBlock p image t
  own : ∀ image ∈ p.images, ∀ other ∈ p.images, ∀ t u, (image.hinstance, t) ∈ attached →
    (other.hinstance, u) ∈ attached → image.tlsAddress.isSome → other.tlsAddress.isSome →
    (p.teb t).tlsArray image.tlsIndex = (p.teb u).tlsArray other.tlsIndex → image = other ∧ t = u

/-- An image that is gone has given its index back, and the block of the thread that
unloaded it. -/
def Released (p p' : Process) (attached : Attached) (t : ℕ) (image : Image) : Prop :=
  image.tlsAddress.isSome →
    p'.pdb.allocated image.tlsIndex = false ∧
    ((image.hinstance, t) ∈ attached → p'.blocks ((p.teb t).tlsArray image.tlsIndex) = none)

def ReleasedBy (p p' : Process) (attached : Attached) : Op → Prop
  | .failLoad t hinstance | .unload t hinstance =>
    ∀ image ∈ p.images, image.hinstance = hinstance → Released p p' attached t image
  | _ => True

/-- Every event that can happen leaves the indices owned and the blocks in place, and
releases what the image that went away had. -/
def RunOk (p : Process) (attached : Attached) : List Op → Prop
  | [] => True
  | op :: ops => ∀ p', step p op = some p' →
      Owned p' ∧ Blocks p' (attach p attached op) ∧ ReleasedBy p p' attached op ∧
        RunOk p' (attach p attached op) ops

/-- An image that gives its storage back when it is deleted. -/
def Image.Releases (image : Image) : Prop :=
  image.tlsAddress.isSome → image.errorState = 0 ∧ image.fSkipEntryCalls = false ∧
    image.dllEntryPoint = true ∧ image.tlsIndex ≠ 32

/-- The event is none of those that go wrong. -/
def Fits (p : Process) : Op → Prop
  | .load _ image memory => image.tlsAddress.isSome →
      memory = true ∧ ∃ index < tlsMinimumAvailable, p.pdb.allocated index = false
  | .failLoad _ hinstance =>
    ∀ image ∈ p.images, image.hinstance = hinstance → image.tlsAddress = none
  | .unload _ hinstance => ∀ image ∈ p.images, image.hinstance = hinstance → image.Releases
  | .createThread _ memory =>
    ∀ image ∈ p.images, image.tlsAddress.isSome → memory image.hinstance = true
  | .exitThread _ => True

def StepsFit (p : Process) : List Op → Prop
  | [] => True
  | op :: ops => ∀ p', step p op = some p' → Fits p op ∧ StepsFit p' ops

end Odin32.ImageTls
