import Odin32.ByteMemory
import Odin32.Word

/-! # The DirectSound software mixer

`MixOneBuffer` and `MixFunc` with the calls that move the cursors of a secondary buffer.
Positions are 22.10 fixed point in a C `int`. An index outside of what it indexes is
recorded and its access left out. -/

set_option autoImplicit false

namespace Odin32.DsMixer

open ByteMemory Word

/-- An `int` or a `LONG`, wrapped around. -/
def long (n : ℤ) : ℤ := n.bmod 0x100000000

def ulong (n : ℤ) : ℕ := (n % 0x100000000).toNat

/-- The size and the format of a secondary buffer. -/
structure Shape where
  wBitsPerSample : ℕ
  nChannels : ℕ
  dwBufferBytes : ℕ
  bits : wBitsPerSample = 8 ∨ wBitsPerSample = 16
  channels : nChannels = 1 ∨ nChannels = 2
  positive : 0 < dwBufferBytes
  aligned : wBitsPerSample * nChannels / 8 ∣ dwBufferBytes
  small : dwBufferBytes < 0x100000000

/-- A format of the primary buffer. -/
structure OutFormat where
  wBitsPerSample : ℕ
  nChannels : ℕ
  nSamplesPerSec : ℕ
  bits : wBitsPerSample = 8 ∨ wBitsPerSample = 16
  channels : 0 < nChannels
  rate : 0 < nSamplesPerSec

structure SndBuf where
  shape : Shape
  lpBuffer : Mem
  nSamplesPerSec : ℕ
  playpos : ℕ
  writepos : ℕ
  frequency : ℕ
  frac : ℤ
  volume : ℤ
  pan : ℤ
  fPlaying : Bool
  fLoop : Bool

def Shape.bytespersample (shape : Shape) : ℕ := shape.wBitsPerSample * shape.nChannels / 8

def bufferSize : ℕ := 32768

/-- The primary buffer. -/
structure OutBuf where
  format : OutFormat
  playpos : ℕ
  lpBuffer : Mem
  /-- The bytes that `MixFunc` stored last, in order. -/
  written : List UInt8
  /-- An access went beyond the buffer. -/
  fault : Bool

/-- `mixbuf`, with the elements it has. -/
structure MixBuf where
  mixbuf : ℕ → ℤ
  room : ℕ
  /-- An index was outside of `mixbuf` or of a secondary buffer. -/
  fault : Bool

structure State where
  mix : MixBuf
  ulMixerBufferSize : ℕ
  /-- The list at `dsbroot`. -/
  buffers : List SndBuf
  primary : OutBuf

namespace SndBuf

/-- `data16b[j]`. -/
def data16b (b : SndBuf) (j : ℤ) : Option ℤ :=
  if 0 ≤ j ∧ 2 * j + 2 ≤ b.shape.dwBufferBytes then
    some ((word b.lpBuffer (2 * j.toNat) 2 : ℤ).bmod 0x10000)
  else none

/-- `(int) data8b[j] - 128`. -/
def data8b (b : SndBuf) (j : ℤ) : Option ℤ :=
  if 0 ≤ j ∧ j + 1 ≤ b.shape.dwBufferBytes then
    some ((b.lpBuffer j.toNat).toNat - 128)
  else none

def stereo16 (b : SndBuf) (vol1 vol2 inpos : ℤ) : Option (ℤ × ℤ) := do
  let j := inpos.tdiv 1024 * 2
  let left ← b.data16b j
  let right ← b.data16b (j + 1)
  some ((left * vol1).tdiv 256, (right * vol2).tdiv 256)

def mono16 (b : SndBuf) (vol1 vol2 inpos : ℤ) : Option (ℤ × ℤ) := do
  let j := inpos.tdiv 1024
  let sample ← b.data16b j
  some ((sample * vol1).tdiv 256, (sample * vol2).tdiv 256)

def stereo8 (b : SndBuf) (vol1 vol2 inpos : ℤ) : Option (ℤ × ℤ) := do
  let j := inpos.tdiv 1024 * 2
  let left ← b.data8b j
  let right ← b.data8b (j + 1)
  some (left * vol1, right * vol2)

def mono8 (b : SndBuf) (vol1 vol2 inpos : ℤ) : Option (ℤ × ℤ) := do
  let j := inpos.tdiv 1024
  let sample ← b.data8b j
  some (sample * vol1, sample * vol2)

/-- What the loop for the format of the buffer adds for one frame. -/
def frame (b : SndBuf) (vol1 vol2 inpos : ℤ) : Option (ℤ × ℤ) :=
  if b.shape.nChannels = 2 ∧ b.shape.wBitsPerSample = 16 then b.stereo16 vol1 vol2 inpos
  else if b.shape.nChannels = 1 ∧ b.shape.wBitsPerSample = 16 then b.mono16 vol1 vol2 inpos
  else if b.shape.nChannels = 2 ∧ b.shape.wBitsPerSample = 8 then b.stereo8 vol1 vol2 inpos
  else b.mono8 vol1 vol2 inpos

end SndBuf

/-- `mixbuf[i] += v`. -/
def MixBuf.add (m : MixBuf) (i : ℕ) (v : ℤ) : MixBuf :=
  if i < m.room then
    { m with mixbuf := fun k => if k = i then long (m.mixbuf k + v) else m.mixbuf k }
  else { m with fault := true }

def MixBuf.addFrame (m : MixBuf) (i : ℕ) : Option (ℤ × ℤ) → MixBuf
  | none => { m with fault := true }
  | some (left, right) => (m.add (2 * i) left).add (2 * i + 1) right

/-- The loop of `MixOneBuffer` from `i` on, with the frames left: the position it ends at,
and whether it ends the playing. -/
def mixLoop (frame : ℤ → Option (ℤ × ℤ)) (fLoop : Bool) (spd len : ℤ) :
    ℕ → ℕ → ℤ → MixBuf → ℤ × Bool × MixBuf
  | 0, _, inpos, m => (inpos, false, m)
  | left + 1, i, inpos, m =>
    let m := m.addFrame i (frame inpos)
    let inpos := long (inpos + spd)
    if inpos ≥ len then
      if fLoop then mixLoop frame fLoop spd len left (i + 1) (long (inpos - len)) m
      else (inpos, true, m)
    else mixLoop frame fLoop spd len left (i + 1) inpos m

def mixOneBuffer (inBuf : SndBuf) (m : MixBuf) (tomix outrate : ℕ) : SndBuf × MixBuf :=
  let bytespersample := inBuf.shape.bytespersample
  let inpos := long (inBuf.playpos / bytespersample * 1024 + inBuf.frac)
  let spd := long (u32 (1024 * inBuf.frequency) / outrate)
  let vol1 := if inBuf.pan ≤ 0 then inBuf.volume else (inBuf.volume * (256 - inBuf.pan)).tdiv 256
  let vol2 := if inBuf.pan ≥ 0 then inBuf.volume else (inBuf.volume * (256 + inBuf.pan)).tdiv 256
  let len := long (inBuf.shape.dwBufferBytes / bytespersample * 1024)
  let (inpos, ends, m) := mixLoop (inBuf.frame vol1 vol2) inBuf.fLoop spd len tomix 0 inpos m
  let playpos := ulong (inpos.tdiv 1024 * bytespersample)
  ({ inBuf with
      playpos := playpos
      frac := inpos.tmod 1024
      fPlaying := inBuf.fPlaying && !ends
      writepos := add32 playpos (u32 (inBuf.frequency * bytespersample) / 67) %
        inBuf.shape.dwBufferBytes }, m)

/-- The walk of `MixFunc` along the list. -/
def mixBuffers (tomix outrate : ℕ) : List SndBuf → MixBuf → List SndBuf × MixBuf
  | [], m => ([], m)
  | inBuf :: rest, m =>
    let (inBuf, m) := if inBuf.fPlaying then mixOneBuffer inBuf m tomix outrate else (inBuf, m)
    let (rest, m) := mixBuffers tomix outrate rest m
    (inBuf :: rest, m)

/-- The bytes of one element in the primary buffer. -/
def outBytes (outbits : ℕ) (v : ℤ) : List UInt8 :=
  if outbits = 16 then
    let v := if v ≤ -32768 then -32768 else if v ≥ 32767 then 32767 else v
    [byteOf (ulong v) 0, byteOf (ulong v) 1]
  else
    let v := if v ≤ -32768 then 0 else if v ≥ 32767 then 255 else v.tdiv 256 + 128
    [byteOf (ulong v) 0]

/-- Puts bytes at `a`, as far as they are in the buffer. -/
def OutBuf.put (out : OutBuf) (a : ℕ) : List UInt8 → OutBuf
  | [] => out
  | byte :: bytes =>
    let out := if a < bufferSize then
        { out with
          lpBuffer := fun k => if k = a then byte else out.lpBuffer k
          written := out.written ++ [byte] }
      else { out with fault := true }
    out.put (a + 1) bytes

/-- The loop that stores the elements, with `outpos` as it moves. -/
def outLoop (mixbuf : ℕ → ℤ) (outbits outlen : ℕ) : ℕ → ℕ → ℕ → OutBuf → ℕ × OutBuf
  | 0, _, outpos, out => (outpos, out)
  | left + 1, i, outpos, out =>
    let out := out.put (outpos * (outbits / 8)) (outBytes outbits (mixbuf i))
    let outpos := outpos + 1
    let outpos := if outpos ≥ outlen then 0 else outpos
    outLoop mixbuf outbits outlen left (i + 1) outpos out

namespace State

def tomix (s : State) (cbMix : ℕ) : ℕ :=
  u32 (cbMix * 8) / s.primary.format.wBitsPerSample / s.primary.format.nChannels

/-- `malloc` and `realloc` for `ulRequiredSize` elements; `ok` is whether they find memory. -/
def allocMix (s : State) (tomix ulRequiredSize : ℕ) (ok : Bool) : State :=
  if s.ulMixerBufferSize < ulRequiredSize then
    { s with
      mix := { s.mix with room := if ok then ulRequiredSize else 0 }
      ulMixerBufferSize := tomix }
  else s

/-- The `memset` of `mixbuf`, over the elements that the last loop reads. -/
def clearMix (s : State) (ulRequiredSize : ℕ) : State :=
  if ulRequiredSize ≤ s.mix.room then
    { s with mix := { s.mix with
      mixbuf := fun k => if k < ulRequiredSize then 0 else s.mix.mixbuf k } }
  else { s with mix := { s.mix with fault := true } }

def mixFunc (s : State) (cbMix : ℕ) (ok : Bool) : State :=
  let outbits := s.primary.format.wBitsPerSample
  let tomix := s.tomix cbMix
  let ulRequiredSize := tomix * s.primary.format.nChannels
  let s := (s.allocMix tomix ulRequiredSize ok).clearMix ulRequiredSize
  let (buffers, mix) := mixBuffers tomix s.primary.format.nSamplesPerSec s.buffers s.mix
  let (outpos, out) := outLoop mix.mixbuf outbits (bufferSize * 8 / outbits) ulRequiredSize 0
    (u32 (s.primary.playpos * 8) / outbits) { s.primary with written := [] }
  { s with
    mix := mix
    buffers := buffers
    primary := { out with playpos := outpos * outbits / 8 } }

end State

/-! ## The calls -/

def dsbplayLooping : ℕ := 1

namespace SndBuf

def setCurrentPosition (b : SndBuf) (dwNewPosition : ℕ) : SndBuf :=
  { b with playpos := dwNewPosition }

def setFrequency (b : SndBuf) (dwFrequency : ℕ) : SndBuf :=
  { b with frequency := if dwFrequency ≠ 0 then dwFrequency else b.nSamplesPerSec }

def play (b : SndBuf) (dwFlags : ℕ) : SndBuf :=
  if b.fPlaying then { b with fLoop := dwFlags == dsbplayLooping }
  else { b with frac := 0, fPlaying := true, fLoop := dwFlags == dsbplayLooping }

def stop (b : SndBuf) : SndBuf := { b with fPlaying := false }

end SndBuf

/-- A call, for the secondary buffer of a number in the list, or for the mixer. -/
inductive Op where
  | setCurrentPosition (k : ℕ) (dwNewPosition : UInt32)
  | setFrequency (k : ℕ) (dwFrequency : UInt32)
  | play (k : ℕ) (dwFlags : UInt32)
  | stop (k : ℕ)
  | mix (cbMix : UInt32) (ok : Bool)

def State.onBuffer (s : State) (k : ℕ) (f : SndBuf → SndBuf) : State :=
  { s with buffers := s.buffers.modify k f }

def step (s : State) : Op → State
  | .setCurrentPosition k dwNewPosition =>
    s.onBuffer k fun b => b.setCurrentPosition dwNewPosition.toNat
  | .setFrequency k dwFrequency => s.onBuffer k fun b => b.setFrequency dwFrequency.toNat
  | .play k dwFlags => s.onBuffer k fun b => b.play dwFlags.toNat
  | .stop k => s.onBuffer k SndBuf.stop
  | .mix cbMix ok => s.mixFunc cbMix.toNat ok

def run (s : State) (ops : List Op) : State := ops.foldl step s

/-- What a secondary buffer is made with. -/
structure Source where
  shape : Shape
  lpBuffer : Mem
  nSamplesPerSec : UInt32
  frequency : UInt32
  frac : Int32
  volume : ℤ
  pan : ℤ
  fLoop : Bool

/-- A new secondary buffer, or a duplicate. -/
def SndBuf.create (src : Source) : SndBuf where
  shape := src.shape
  lpBuffer := src.lpBuffer
  nSamplesPerSec := src.nSamplesPerSec.toNat
  playpos := 0
  writepos := 0
  frequency := src.frequency.toNat
  frac := src.frac.toInt
  volume := src.volume
  pan := src.pan
  fPlaying := false
  fLoop := src.fLoop

def init (sources : List Source) (format : OutFormat) (lpBuffer : Mem) : State where
  mix := ⟨fun _ => 0, 0, false⟩
  ulMixerBufferSize := 0
  buffers := sources.map SndBuf.create
  primary := ⟨format, 0, lpBuffer, [], false⟩

end Odin32.DsMixer
