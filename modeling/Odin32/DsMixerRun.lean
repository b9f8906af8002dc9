import Odin32.DsMixer
import Mathlib.Data.List.Basic

/-! # The mixer stays inside

When every index of the mixer is inside of what it indexes and the cursors of a playing
buffer are on its frames: the positions fit an `int`, a loop is at least one step long, or
too short a run of frames is mixed to show it, `mixbuf` has two elements a frame, and what
is started stands inside. -/

set_option autoImplicit false

namespace Odin32.DsMixer

open ByteMemory Word

/-! ## The property -/

/-- The cursors of a buffer are on its frames. -/
structure Placed (b : SndBuf) : Prop where
  playpos_dvd : b.shape.bytespersample ∣ b.playpos
  playpos_lt : b.playpos < b.shape.dwBufferBytes
  writepos_dvd : b.shape.bytespersample ∣ b.writepos
  writepos_lt : b.writepos < b.shape.dwBufferBytes
  frac : 0 ≤ b.frac ∧ b.frac < 1024

/-- No index was outside, and what plays is placed. -/
structure Safe (s : State) : Prop where
  mixed : s.mix.fault = false
  stored : s.primary.fault = false
  placed : ∀ b ∈ s.buffers, b.fPlaying = true → Placed b

/-! ## What a call needs -/

def Shape.samples (shape : Shape) : ℕ := shape.dwBufferBytes / shape.bytespersample

/-- The step of a buffer for one frame of the output, in 22.10 fixed point. -/
def SndBuf.spd (b : SndBuf) (outrate : ℕ) : ℕ := u32 (1024 * b.frequency) / outrate

/-- The position of a buffer, and its length, in 22.10 fixed point. -/
def SndBuf.inpos (b : SndBuf) : ℕ := b.playpos / b.shape.bytespersample * 1024 + b.frac.toNat

def SndBuf.len (b : SndBuf) : ℕ := b.shape.samples * 1024

/-- A buffer that plays can be mixed for `tomix` frames. -/
structure MixFits (b : SndBuf) (tomix outrate : ℕ) : Prop where
  /-- The length and a step past a position inside of it fit an `int`. -/
  len_lt : b.len < 0x80000000
  past_lt : b.len + b.spd outrate ≤ 0x80000000
  /-- One subtraction brings a loop back, or the frames end before it does not. -/
  wraps : b.fLoop = true → b.inpos + tomix * (b.spd outrate - b.len) < b.len
  /-- The write cursor is a whole number of frames ahead. -/
  ahead : b.shape.bytespersample ∣ u32 (b.frequency * b.shape.bytespersample) / 67

/-- What `mixbuf` holds once `MixFunc` has made sure of its size. -/
def State.mixRoom (s : State) (cbMix : ℕ) : ℕ :=
  let ulRequiredSize := s.tomix cbMix * s.primary.format.nChannels
  if s.ulMixerBufferSize < ulRequiredSize then ulRequiredSize else s.mix.room

/-- A buffer can be started where it stands. -/
def PlayFits (b : SndBuf) : Prop :=
  b.fPlaying = false → b.shape.bytespersample ∣ b.playpos ∧ b.playpos < b.shape.dwBufferBytes

/-- A buffer that plays can be moved to `dwNewPosition`. -/
def MoveFits (b : SndBuf) (dwNewPosition : ℕ) : Prop :=
  b.fPlaying = true →
    b.shape.bytespersample ∣ dwNewPosition ∧ dwNewPosition < b.shape.dwBufferBytes

def OpFits (s : State) : Op → Prop
  | .setCurrentPosition k dwNewPosition => ∀ b ∈ s.buffers[k]?, MoveFits b dwNewPosition.toNat
  | .setFrequency _ _ => True
  | .play k _ => ∀ b ∈ s.buffers[k]?, PlayFits b
  | .stop _ => True
  | .mix cbMix ok =>
    let tomix := s.tomix cbMix.toNat
    (s.ulMixerBufferSize < tomix * s.primary.format.nChannels → ok = true) ∧
      ∀ b ∈ s.buffers, b.fPlaying = true →
        2 * tomix ≤ s.mixRoom cbMix.toNat ∧ MixFits b tomix s.primary.format.nSamplesPerSec

instance (b : SndBuf) (tomix outrate : ℕ) : Decidable (MixFits b tomix outrate) :=
  decidable_of_iff (b.len < 0x80000000 ∧ b.len + b.spd outrate ≤ 0x80000000 ∧
    (b.fLoop = true → b.inpos + tomix * (b.spd outrate - b.len) < b.len) ∧
    b.shape.bytespersample ∣ u32 (b.frequency * b.shape.bytespersample) / 67)
    ⟨fun h => ⟨h.1, h.2.1, h.2.2.1, h.2.2.2⟩, fun h => ⟨h.len_lt, h.past_lt, h.wraps, h.ahead⟩⟩

instance (b : SndBuf) : Decidable (PlayFits b) := inferInstanceAs (Decidable (_ → _))

instance (b : SndBuf) (dwNewPosition : ℕ) : Decidable (MoveFits b dwNewPosition) :=
  inferInstanceAs (Decidable (_ → _))

instance (s : State) : (op : Op) → Decidable (OpFits s op)
  | .setCurrentPosition k dwNewPosition =>
    inferInstanceAs (Decidable (∀ b ∈ s.buffers[k]?, MoveFits b dwNewPosition.toNat))
  | .setFrequency _ _ => .isTrue trivial
  | .play k _ => inferInstanceAs (Decidable (∀ b ∈ s.buffers[k]?, PlayFits b))
  | .stop _ => .isTrue trivial
  | .mix _ _ => inferInstanceAs (Decidable ((_ → _) ∧ ∀ b ∈ s.buffers, _ → _ ∧ MixFits b _ _))

/-! ## Positions -/

theorem long_of_lt {n : ℕ} (lt : n < 0x80000000) : long n = n := by
  unfold long
  rw [Int.bmod_def]
  omega

theorem Shape.bytespersample_cases (shape : Shape) :
    (shape.nChannels = 2 ∧ shape.wBitsPerSample = 16 ∧ shape.bytespersample = 4) ∨
    (shape.nChannels = 1 ∧ shape.wBitsPerSample = 16 ∧ shape.bytespersample = 2) ∨
    (shape.nChannels = 2 ∧ shape.wBitsPerSample = 8 ∧ shape.bytespersample = 2) ∨
    (shape.nChannels = 1 ∧ shape.wBitsPerSample = 8 ∧ shape.bytespersample = 1) := by
  unfold Shape.bytespersample
  rcases shape.bits with bits | bits <;> rcases shape.channels with channels | channels <;>
    simp [bits, channels]

theorem Shape.bytespersample_pos (shape : Shape) : 0 < shape.bytespersample := by
  rcases shape.bytespersample_cases with h | h | h | h <;> omega

theorem Shape.samples_mul (shape : Shape) :
    shape.samples * shape.bytespersample = shape.dwBufferBytes :=
  Nat.div_mul_cancel shape.aligned

section Frames

variable {b : SndBuf}

theorem data16b_isSome {j : ℕ} (inside : 2 * j + 2 ≤ b.shape.dwBufferBytes) :
    (b.data16b j).isSome = true := by
  unfold SndBuf.data16b
  rw [if_pos (by omega)]
  rfl

theorem data8b_isSome {j : ℕ} (inside : j + 1 ≤ b.shape.dwBufferBytes) :
    (b.data8b j).isSome = true := by
  unfold SndBuf.data8b
  rw [if_pos (by omega)]
  rfl

theorem tdiv_1024 (inpos : ℕ) : (inpos : ℤ).tdiv 1024 = (inpos / 1024 : ℕ) := by
  rw [Int.tdiv_eq_ediv_of_nonneg (by omega)]
  omega

theorem frame_isSome (vol1 vol2 : ℤ) {inpos : ℕ} (lt : inpos < b.len) :
    (b.frame vol1 vol2 inpos).isSome = true := by
  have whole := b.shape.samples_mul
  have sample : inpos / 1024 < b.shape.samples := by
    unfold SndBuf.len at lt
    omega
  unfold SndBuf.frame
  rcases b.shape.bytespersample_cases with ⟨nch, bits, bps⟩ | ⟨nch, bits, bps⟩ | ⟨nch, bits, bps⟩ |
      ⟨nch, bits, bps⟩ <;> rw [bps] at whole
  · obtain ⟨left, left_eq⟩ := Option.isSome_iff_exists.mp
      (data16b_isSome (b := b) (j := inpos / 1024 * 2) (by omega))
    obtain ⟨right, right_eq⟩ := Option.isSome_iff_exists.mp
      (data16b_isSome (b := b) (j := inpos / 1024 * 2 + 1) (by omega))
    rw [if_pos ⟨nch, bits⟩]
    unfold SndBuf.stereo16
    rw [tdiv_1024]
    push_cast at left_eq right_eq ⊢
    rw [left_eq, right_eq]
    rfl
  · obtain ⟨sample, sample_eq⟩ := Option.isSome_iff_exists.mp
      (data16b_isSome (b := b) (j := inpos / 1024) (by omega))
    rw [if_neg (by omega), if_pos ⟨nch, bits⟩]
    unfold SndBuf.mono16
    dsimp only
    rw [tdiv_1024, sample_eq]
    rfl
  · obtain ⟨left, left_eq⟩ := Option.isSome_iff_exists.mp
      (data8b_isSome (b := b) (j := inpos / 1024 * 2) (by omega))
    obtain ⟨right, right_eq⟩ := Option.isSome_iff_exists.mp
      (data8b_isSome (b := b) (j := inpos / 1024 * 2 + 1) (by omega))
    rw [if_neg (by omega), if_neg (by omega), if_pos ⟨nch, bits⟩]
    unfold SndBuf.stereo8
    rw [tdiv_1024]
    push_cast at left_eq right_eq ⊢
    rw [left_eq, right_eq]
    rfl
  · obtain ⟨sample, sample_eq⟩ := Option.isSome_iff_exists.mp
      (data8b_isSome (b := b) (j := inpos / 1024) (by omega))
    rw [if_neg (by omega), if_neg (by omega), if_neg (by omega)]
    unfold SndBuf.mono8
    dsimp only
    rw [tdiv_1024, sample_eq]
    rfl

end Frames

/-! ## The mixing loop -/

theorem add_room (m : MixBuf) (i : ℕ) (v : ℤ) : (m.add i v).room = m.room := by
  unfold MixBuf.add
  split <;> rfl

theorem add_fault {m : MixBuf} {i : ℕ} (inside : i < m.room) (v : ℤ) :
    (m.add i v).fault = m.fault := by
  unfold MixBuf.add
  rw [if_pos inside]

theorem addFrame_inside {m : MixBuf} {i : ℕ} (inside : 2 * i + 2 ≤ m.room) {v : Option (ℤ × ℤ)}
    (read : v.isSome = true) :
    (m.addFrame i v).fault = m.fault ∧ (m.addFrame i v).room = m.room := by
  obtain ⟨⟨left, right⟩, rfl⟩ := Option.isSome_iff_exists.mp read
  have first : (m.add (2 * i) left).room = m.room := add_room m _ left
  unfold MixBuf.addFrame
  refine ⟨?_, (add_room _ _ right).trans first⟩
  rw [add_fault (by rw [first]; omega), add_fault (by omega)]

/-- Where the loop ends, and that it stays inside: the induction is on the frames left, and
the bound on the position pays for one lap a frame. -/
theorem mixLoop_inside (frame : ℤ → Option (ℤ × ℤ)) (fLoop : Bool) {spd len left : ℕ}
    (i inpos : ℕ) {m : MixBuf} (reads : ∀ p < len, (frame (p : ℕ)).isSome = true)
    (fits : len + spd ≤ 0x80000000) (lt : inpos < len)
    (wraps : fLoop = true → inpos + left * (spd - len) < len) (room : 2 * (i + left) ≤ m.room) :
    ∃ (inpos' : ℕ) (ends : Bool) (m' : MixBuf),
      mixLoop frame fLoop spd len left i inpos m = ((inpos' : ℤ), ends, m') ∧
      m'.fault = m.fault ∧ m'.room = m.room ∧ inpos' < 0x80000000 ∧
      (ends = false → inpos' < len) := by
  induction left generalizing i inpos m with
  | zero => exact ⟨inpos, false, m, rfl, rfl, rfl, by omega, fun _ => lt⟩
  | succ left ih =>
    obtain ⟨fault, room_eq⟩ := addFrame_inside (m := m) (i := i) (by omega) (reads inpos lt)
    have next : long ((inpos : ℤ) + spd) = (inpos + spd : ℕ) := by
      rw [← Nat.cast_add]
      exact long_of_lt (by omega)
    rw [mixLoop, next]
    rw [Nat.succ_mul] at wraps
    by_cases past : len ≤ inpos + spd
    · rw [if_pos (by omega)]
      by_cases loop : fLoop = true
      · have lap : long (((inpos + spd : ℕ) : ℤ) - len) = (inpos + spd - len : ℕ) := by
          have sub : ((inpos + spd : ℕ) : ℤ) - len = (inpos + spd - len : ℕ) := by omega
          rw [sub]
          exact long_of_lt (by omega)
        have wraps := wraps loop
        rw [if_pos loop, lap]
        obtain ⟨inpos', ends, m', eq, rest⟩ := ih (i + 1) (inpos + spd - len)
          (m := m.addFrame i (frame inpos)) (by omega) (fun _ => by omega) (by rw [room_eq]; omega)
        exact ⟨inpos', ends, m', eq, rest.1.trans fault, rest.2.1.trans room_eq, rest.2.2⟩
      · rw [if_neg loop]
        exact ⟨inpos + spd, true, _, rfl, fault, room_eq, by omega, fun h => by cases h⟩
    · have short : spd - len = 0 := by omega
      rw [if_neg (by omega)]
      obtain ⟨inpos', ends, m', eq, rest⟩ := ih (i + 1) (inpos + spd)
        (m := m.addFrame i (frame inpos)) (by omega) (fun _ => by rw [short]; omega)
        (by rw [room_eq]; omega)
      exact ⟨inpos', ends, m', eq, rest.1.trans fault, rest.2.1.trans room_eq, rest.2.2⟩

/-! ## The buffers -/

/-- The write cursor of a buffer is on its frames. -/
def WriteOk (b : SndBuf) : Prop :=
  b.shape.bytespersample ∣ b.writepos ∧ b.writepos < b.shape.dwBufferBytes

theorem Placed.inpos_lt {b : SndBuf} (placed : Placed b) : b.inpos < b.len := by
  have whole := b.shape.samples_mul
  have frames : b.playpos / b.shape.bytespersample < b.shape.samples := by
    apply Nat.div_lt_of_lt_mul
    rw [Nat.mul_comm, whole]
    exact placed.playpos_lt
  have frac := placed.frac
  unfold SndBuf.inpos SndBuf.len
  omega

theorem bytespersample_dvd_word (shape : Shape) : shape.bytespersample ∣ 0x100000000 := by
  rcases shape.bytespersample_cases with h | h | h | h <;> rw [h.2.2] <;> decide

theorem dvd_add32 {k a b : ℕ} (word : k ∣ 0x100000000) (left : k ∣ a) (right : k ∣ b) :
    k ∣ add32 a b := (Nat.dvd_mod_iff word).mpr (Nat.dvd_add left right)

theorem ulong_of_lt {n : ℕ} (lt : n < 0x100000000) : ulong n = n := by
  unfold ulong
  omega

theorem dvd_ulong {k n : ℕ} (word : k ∣ 0x100000000) (dvd : k ∣ n) : k ∣ ulong n := by
  have cast : ulong n = n % 0x100000000 := by
    unfold ulong
    omega
  rw [cast]
  exact (Nat.dvd_mod_iff word).mpr dvd

theorem mixOneBuffer_inside {b : SndBuf} {m : MixBuf} {tomix outrate : ℕ} (placed : Placed b)
    (fits : MixFits b tomix outrate) (room : 2 * tomix ≤ m.room) :
    (mixOneBuffer b m tomix outrate).2.fault = m.fault ∧
    (mixOneBuffer b m tomix outrate).2.room = m.room ∧
    ((mixOneBuffer b m tomix outrate).1.fPlaying = true →
      Placed (mixOneBuffer b m tomix outrate).1) ∧
    WriteOk (mixOneBuffer b m tomix outrate).1 := by
  have lt := placed.inpos_lt
  have short := fits.len_lt
  have bound := fits.past_lt
  have whole := b.shape.samples_mul
  have pos := b.shape.bytespersample_pos
  have frac := placed.frac
  have start : (b.playpos : ℤ) / b.shape.bytespersample * 1024 + b.frac = b.inpos := by
    unfold SndBuf.inpos
    push_cast
    omega
  have spd : ((u32 (1024 * b.frequency) : ℕ) : ℤ) / outrate = b.spd outrate := rfl
  have len : (b.shape.dwBufferBytes : ℤ) / b.shape.bytespersample * 1024 = b.len := rfl
  have loop := fun vol1 vol2 => mixLoop_inside (b.frame vol1 vol2) b.fLoop 0
    b.inpos (m := m) (fun p lt => frame_isSome vol1 vol2 lt) bound lt fits.wraps (by omega)
  unfold mixOneBuffer
  dsimp only
  rw [start, spd, len, long_of_lt (n := b.inpos) (by omega),
    long_of_lt (n := b.spd outrate) (by omega), long_of_lt (n := b.len) short]
  obtain ⟨inpos', ends, m', eq, fault, room_eq, inpos_lt, stays⟩ := loop
    (if b.pan ≤ 0 then b.volume else (b.volume * (256 - b.pan)).tdiv 256)
    (if b.pan ≥ 0 then b.volume else (b.volume * (256 + b.pan)).tdiv 256)
  rw [eq]
  dsimp only
  have word := bytespersample_dvd_word b.shape
  have cursor : (inpos' : ℤ).tdiv 1024 * b.shape.bytespersample =
      (inpos' / 1024 * b.shape.bytespersample : ℕ) := by
    rw [tdiv_1024]
    push_cast
    rfl
  rw [cursor]
  have write : WriteOk { b with
      writepos := add32 (ulong ((inpos' / 1024 * b.shape.bytespersample : ℕ) : ℤ))
        (u32 (b.frequency * b.shape.bytespersample) / 67) % b.shape.dwBufferBytes } := by
    refine ⟨?_, Nat.mod_lt _ b.shape.positive⟩
    exact (Nat.dvd_mod_iff b.shape.aligned).mpr
      (dvd_add32 word (dvd_ulong word (Dvd.intro_left _ rfl)) fits.ahead)
  refine ⟨fault, room_eq, ?_, write⟩
  intro plays
  have goes : ends = false := by
    cases ends
    · rfl
    · rw [Bool.not_true, Bool.and_false] at plays
      cases plays
  have inside := stays goes
  have frames : inpos' / 1024 < b.shape.samples := by
    unfold SndBuf.len at inside
    omega
  have bytes : inpos' / 1024 * b.shape.bytespersample < b.shape.dwBufferBytes := by
    rw [← whole]
    exact Nat.mul_lt_mul_of_pos_right frames pos
  have small := b.shape.small
  have fracs : (inpos' : ℤ).tmod 1024 = (inpos' % 1024 : ℕ) := by
    rw [Int.tmod_eq_emod_of_nonneg (by omega)]
    omega
  have kept := ulong_of_lt (n := inpos' / 1024 * b.shape.bytespersample) (by omega)
  refine ⟨?_, ?_, write.1, write.2, ?_⟩
  · dsimp only
    rw [kept]
    exact Dvd.intro_left _ rfl
  · dsimp only
    rw [kept]
    exact bytes
  · dsimp only
    rw [fracs]
    omega

theorem mixBuffers_inside (tomix outrate : ℕ) {buffers : List SndBuf} {m : MixBuf}
    (placed : ∀ b ∈ buffers, b.fPlaying = true → Placed b) (write : ∀ b ∈ buffers, WriteOk b)
    (fits : ∀ b ∈ buffers, b.fPlaying = true → 2 * tomix ≤ m.room ∧ MixFits b tomix outrate) :
    (mixBuffers tomix outrate buffers m).2.fault = m.fault ∧
    (mixBuffers tomix outrate buffers m).2.room = m.room ∧
    (∀ b ∈ (mixBuffers tomix outrate buffers m).1, b.fPlaying = true → Placed b) ∧
    ∀ b ∈ (mixBuffers tomix outrate buffers m).1, WriteOk b := by
  induction buffers generalizing m with
  | nil => exact ⟨rfl, rfl, placed, write⟩
  | cons b rest ih =>
    have head : ∀ r : SndBuf × MixBuf, r.2.fault = m.fault → r.2.room = m.room →
        (r.1.fPlaying = true → Placed r.1) → WriteOk r.1 →
        (mixBuffers tomix outrate rest r.2).2.fault = m.fault ∧
        (mixBuffers tomix outrate rest r.2).2.room = m.room ∧
        (∀ b ∈ r.1 :: (mixBuffers tomix outrate rest r.2).1, b.fPlaying = true → Placed b) ∧
        ∀ b ∈ r.1 :: (mixBuffers tomix outrate rest r.2).1, WriteOk b := by
      intro r fault room placed' write'
      have tail := ih (m := r.2) (fun c mem => placed c (List.mem_cons_of_mem b mem))
        (fun c mem => write c (List.mem_cons_of_mem b mem)) (by
          intro c mem plays
          rw [room]
          exact fits c (List.mem_cons_of_mem b mem) plays)
      refine ⟨tail.1.trans fault, tail.2.1.trans room, ?_, ?_⟩
      · exact List.forall_mem_cons.mpr ⟨placed', tail.2.2.1⟩
      · exact List.forall_mem_cons.mpr ⟨write', tail.2.2.2⟩
    unfold mixBuffers
    by_cases plays : b.fPlaying = true
    · obtain ⟨room, fits'⟩ := fits b List.mem_cons_self plays
      have one := mixOneBuffer_inside (placed b List.mem_cons_self plays) fits' room
      rw [if_pos plays]
      exact head _ one.1 one.2.1 one.2.2.1 one.2.2.2
    · rw [if_neg plays]
      exact head (b, m) rfl rfl (placed b List.mem_cons_self) (write b List.mem_cons_self)

/-! ## The primary buffer -/

theorem OutFormat.element (format : OutFormat) :
    (format.wBitsPerSample / 8 = 1 ∧ bufferSize * 8 / format.wBitsPerSample = 32768 ∧
      format.wBitsPerSample = 8) ∨
    (format.wBitsPerSample / 8 = 2 ∧ bufferSize * 8 / format.wBitsPerSample = 16384 ∧
      format.wBitsPerSample = 16) := by
  rcases format.bits with bits | bits
  · exact .inl (by rw [bits]; decide)
  · exact .inr (by rw [bits]; decide)

theorem OutFormat.byte_lt (format : OutFormat) {outpos : ℕ}
    (lt : outpos < bufferSize * 8 / format.wBitsPerSample) :
    outpos * format.wBitsPerSample / 8 < bufferSize := by
  unfold bufferSize at lt ⊢
  rcases format.element with h | h <;> rw [h.2.2] at lt ⊢ <;> omega

theorem length_outBytes (format : OutFormat) (v : ℤ) :
    (outBytes format.wBitsPerSample v).length = format.wBitsPerSample / 8 := by
  unfold outBytes
  rcases format.bits with bits | bits <;> rw [bits] <;> rfl

theorem put_inside (out : OutBuf) {a : ℕ} {bytes : List UInt8}
    (inside : a + bytes.length ≤ bufferSize) :
    (out.put a bytes).fault = out.fault ∧ (out.put a bytes).format = out.format := by
  induction bytes generalizing out a with
  | nil => exact ⟨rfl, rfl⟩
  | cons byte bytes ih =>
    rw [List.length_cons] at inside
    unfold OutBuf.put
    rw [if_pos (by omega)]
    exact ih _ (by omega)

theorem outLoop_inside (mixbuf : ℕ → ℤ) (format : OutFormat) (left i : ℕ) {outpos : ℕ} (out : OutBuf)
    (lt : outpos < bufferSize * 8 / format.wBitsPerSample) :
    let r := outLoop mixbuf format.wBitsPerSample (bufferSize * 8 / format.wBitsPerSample) left i
      outpos out
    r.1 < bufferSize * 8 / format.wBitsPerSample ∧ r.2.fault = out.fault ∧
      r.2.format = out.format := by
  induction left generalizing i outpos out with
  | zero => exact ⟨lt, rfl, rfl⟩
  | succ left ih =>
    have inside : outpos * (format.wBitsPerSample / 8) +
        (outBytes format.wBitsPerSample (mixbuf i)).length ≤ bufferSize := by
      rw [length_outBytes]
      unfold bufferSize at lt ⊢
      rcases format.element with h | h <;> rw [h.1] <;> rw [h.2.2] at lt <;> omega
    obtain ⟨fault, same⟩ := put_inside out inside
    have next : (if outpos + 1 ≥ bufferSize * 8 / format.wBitsPerSample then 0 else outpos + 1) <
        bufferSize * 8 / format.wBitsPerSample := by
      split <;> omega
    obtain ⟨lt', fault', same'⟩ := ih (i + 1) (out.put (outpos * (format.wBitsPerSample / 8))
      (outBytes format.wBitsPerSample (mixbuf i))) next
    exact ⟨lt', fault'.trans fault, same'.trans same⟩

/-! ## The steps -/

structure Inv (s : State) : Prop extends Safe s where
  room : s.ulMixerBufferSize ≤ s.mix.room
  ring : s.primary.playpos < bufferSize
  write : ∀ b ∈ s.buffers, WriteOk b

theorem inv_init (sources : List Source) (format : OutFormat) (lpBuffer : Mem) :
    Inv (init sources format lpBuffer) := by
  refine ⟨⟨rfl, rfl, ?_⟩, Nat.zero_le _, show 0 < bufferSize by decide, ?_⟩
  · intro b mem plays
    obtain ⟨src, -, rfl⟩ := List.mem_map.mp mem
    cases plays
  · intro b mem
    obtain ⟨src, -, rfl⟩ := List.mem_map.mp mem
    exact ⟨Nat.dvd_zero _, src.shape.positive⟩

theorem Inv.onBuffer {s : State} (inv : Inv s) {k : ℕ} {f : SndBuf → SndBuf}
    (placed : ∀ b ∈ s.buffers[k]?, (b.fPlaying = true → Placed b) → WriteOk b →
      (f b).fPlaying = true → Placed (f b))
    (write : ∀ b, WriteOk b → WriteOk (f b)) : Inv (s.onBuffer k f) := by
  have mem : ∀ c ∈ s.buffers.modify k f, c ∈ s.buffers ∨ ∃ b ∈ s.buffers[k]?, c = f b := by
    intro c mem
    obtain ⟨j, hj, rfl⟩ := List.getElem_of_mem mem
    rw [List.length_modify] at hj
    rw [List.getElem_modify]
    split
    · rename_i eq
      subst eq
      exact .inr ⟨_, List.getElem?_eq_getElem hj, rfl⟩
    · exact .inl (List.getElem_mem hj)
  have old : ∀ b ∈ s.buffers[k]?, b ∈ s.buffers := fun b eq => List.mem_of_getElem? eq
  refine ⟨⟨inv.mixed, inv.stored, ?_⟩, inv.room, inv.ring, ?_⟩
  · intro c mem_c plays
    rcases mem c mem_c with in_old | ⟨b, found, rfl⟩
    · exact inv.placed c in_old plays
    · exact placed b found (inv.placed b (old b found)) (inv.write b (old b found)) plays
  · intro c mem_c
    rcases mem c mem_c with in_old | ⟨b, found, rfl⟩
    · exact inv.write c in_old
    · exact write b (inv.write b (old b found))

theorem prepared {s : State} {tomix ulRequiredSize : ℕ} {ok : Bool}
    (room : s.ulMixerBufferSize ≤ s.mix.room) (enough : tomix ≤ ulRequiredSize)
    (finds : s.ulMixerBufferSize < ulRequiredSize → ok = true) :
    let t := (s.allocMix tomix ulRequiredSize ok).clearMix ulRequiredSize
    t.mix.room = (if s.ulMixerBufferSize < ulRequiredSize then ulRequiredSize else s.mix.room) ∧
      t.mix.fault = s.mix.fault ∧ t.ulMixerBufferSize ≤ t.mix.room ∧ t.buffers = s.buffers ∧
      t.primary = s.primary := by
  intro t
  by_cases grows : s.ulMixerBufferSize < ulRequiredSize
  · have alloc : s.allocMix tomix ulRequiredSize ok =
        { s with mix := { s.mix with room := ulRequiredSize }, ulMixerBufferSize := tomix } := by
      unfold State.allocMix
      rw [if_pos grows, if_pos (finds grows)]
    have eq : t = _ := (congrArg (fun s => State.clearMix s ulRequiredSize) alloc).trans
      (if_pos (Nat.le_refl ulRequiredSize))
    rw [eq, if_pos grows]
    exact ⟨rfl, rfl, enough, rfl, rfl⟩
  · have alloc : s.allocMix tomix ulRequiredSize ok = s := if_neg grows
    have eq : t = _ := (congrArg (fun s => State.clearMix s ulRequiredSize) alloc).trans
      (if_pos (by omega))
    rw [eq, if_neg grows]
    exact ⟨rfl, rfl, room, rfl, rfl⟩

theorem mixFunc_inv {s : State} {cbMix : UInt32} {ok : Bool} (inv : Inv s)
    (fits : OpFits s (.mix cbMix ok)) : Inv (s.mixFunc cbMix.toNat ok) := by
  obtain ⟨finds, fits⟩ := fits
  let tomix := s.tomix cbMix.toNat
  let ulRequiredSize := tomix * s.primary.format.nChannels
  have enough : tomix ≤ ulRequiredSize := Nat.le_mul_of_pos_right tomix s.primary.format.channels
  obtain ⟨room, fault, size, buffers, primary⟩ := prepared inv.room enough finds
  obtain ⟨mixed, room', placed, write⟩ := mixBuffers_inside tomix
    s.primary.format.nSamplesPerSec
    (m := ((s.allocMix tomix ulRequiredSize ok).clearMix ulRequiredSize).mix) inv.placed inv.write
    (by rw [room]; exact fits)
  have start : u32 (s.primary.playpos * 8) / s.primary.format.wBitsPerSample <
      bufferSize * 8 / s.primary.format.wBitsPerSample := by
    have ring := inv.ring
    unfold bufferSize at ring ⊢
    unfold u32
    rcases s.primary.format.element with h | h <;> rw [h.2.2] <;> omega
  obtain ⟨ends, stored, same⟩ := outLoop_inside (mixBuffers tomix
    s.primary.format.nSamplesPerSec s.buffers
    ((s.allocMix tomix ulRequiredSize ok).clearMix ulRequiredSize).mix).2.mixbuf
    s.primary.format ulRequiredSize 0 { s.primary with written := [] } start
  unfold State.mixFunc
  dsimp only
  rw [buffers, primary]
  refine ⟨⟨mixed.trans (fault.trans inv.mixed), stored.trans inv.stored, placed⟩, ?_, ?_, write⟩
  · show _ ≤ (mixBuffers _ _ _ _).2.room
    rw [room']
    exact size
  · exact s.primary.format.byte_lt ends

theorem step_inv {s : State} {op : Op} (inv : Inv s) (fits : OpFits s op) : Inv (step s op) := by
  cases op with
  | setCurrentPosition k dwNewPosition =>
    refine inv.onBuffer ?_ fun b write => write
    intro b found placed write plays
    have old := placed plays
    have now := fits b found plays
    exact ⟨now.1, now.2, write.1, write.2, old.frac⟩
  | setFrequency k dwFrequency =>
    refine inv.onBuffer ?_ fun b write => write
    intro b _ placed _ plays
    have old := placed plays
    exact ⟨old.playpos_dvd, old.playpos_lt, old.writepos_dvd, old.writepos_lt, old.frac⟩
  | play k dwFlags =>
    refine inv.onBuffer ?_ ?_
    · intro b found placed write _
      unfold SndBuf.play
      by_cases plays : b.fPlaying = true
      · have old := placed plays
        rw [if_pos plays]
        exact ⟨old.playpos_dvd, old.playpos_lt, old.writepos_dvd, old.writepos_lt, old.frac⟩
      · have now := fits b found (Bool.eq_false_of_not_eq_true plays)
        rw [if_neg plays]
        exact ⟨now.1, now.2, write.1, write.2, show (0 : ℤ) ≤ 0 ∧ (0 : ℤ) < 1024 by decide⟩
    · intro b write
      unfold SndBuf.play
      split
      · exact write
      · exact write
  | stop k =>
    refine inv.onBuffer ?_ fun b write => write
    intro b _ _ _ plays
    cases plays
  | mix cbMix ok => exact mixFunc_inv inv fits

/-! ## Runs -/

/-- Every call of a run has what it needs. -/
def RunFits : State → List Op → Prop
  | _, [] => True
  | s, op :: ops => OpFits s op ∧ RunFits (step s op) ops

instance runFitsDecidable : (s : State) → (ops : List Op) → Decidable (RunFits s ops)
  | _, [] => .isTrue trivial
  | s, op :: ops =>
    haveI := runFitsDecidable (step s op) ops
    inferInstanceAs (Decidable (_ ∧ _))

theorem Inv.run {s : State} {ops : List Op} (inv : Inv s) (fits : RunFits s ops) :
    Inv (run s ops) := by
  induction ops generalizing s with
  | nil => exact inv
  | cons op ops ih => exact ih (step_inv inv fits.1) fits.2

theorem RunFits.take {s : State} {ops : List Op} (fits : RunFits s ops) (n : ℕ) :
    RunFits s (ops.take n) := by
  induction ops generalizing s n with
  | nil =>
    rw [List.take_nil]
    trivial
  | cons op ops ih =>
    cases n with
    | zero => trivial
    | succ n => exact ⟨fits.1, ih fits.2 n⟩

/-- The mixer stays inside its buffers after every part of a run. -/
theorem run_safe (sources : List Source) (format : OutFormat) (lpBuffer : Mem) {ops : List Op}
    (fits : RunFits (init sources format lpBuffer) ops) (n : ℕ) :
    Safe (run (init sources format lpBuffer) (ops.take n)) :=
  ((inv_init sources format lpBuffer).run (fits.take n)).toSafe

/-- A short 16-bit stereo sound. -/
def stereoSource : Source where
  shape := ⟨16, 2, 16, by decide, by decide, by decide, by decide, by decide⟩
  lpBuffer a := UInt8.ofNat (a * 37)
  nSamplesPerSec := 22050
  frequency := 22050
  frac := 0
  volume := 255
  pan := 0
  fLoop := false

def stereoFormat : OutFormat := ⟨16, 2, 22050, by decide, by decide, by decide⟩

/-- A loop that is mixed past its end, moved, and mixed until it ends. -/
def loopedRun : List Op :=
  [.play 0 1, .mix 24 true, .setCurrentPosition 0 12, .mix 16 true, .play 0 0, .mix 16 true,
    .setCurrentPosition 0 0, .play 0 0]

theorem run_safe_loopedRun : Safe (run (init [stereoSource] stereoFormat fun _ => 0)
    (loopedRun.take 8)) :=
  run_safe [stereoSource] stereoFormat (fun _ => 0) (by decide +kernel) 8

/-- A sound that has ended is started again where it ended. -/
def restartedRun : List Op := [.play 0 0, .mix 16 true, .play 0 0]

theorem restartedRun_not_safe :
    ¬∀ (sources : List Source) (format : OutFormat) (lpBuffer : Mem) (ops : List Op) (n : ℕ),
      Safe (run (init sources format lpBuffer) (ops.take n)) := by
  intro all
  have safe := all [stereoSource] stereoFormat (fun _ => 0) restartedRun 3
  have inside : (run (init [stereoSource] stereoFormat fun _ => 0)
      (restartedRun.take 3)).buffers.all
      (fun b => !b.fPlaying || decide (b.playpos < b.shape.dwBufferBytes)) = true := by
    apply List.all_eq_true.mpr
    intro b mem
    cases plays : b.fPlaying
    · rfl
    · exact decide_eq_true (safe.placed b mem plays).playpos_lt
  revert inside
  decide +kernel

end Odin32.DsMixer
