import Odin32.DsMixerRun
import Mathlib.Algebra.BigOperators.Group.List.Basic
import Mathlib.Tactic.Linarith

/-! # Mixing in chunks

What `MixFunc` leaves does not depend on how the frames are cut into calls. The position of a
buffer after each frame is known in closed form, and with it each element of `mixbuf`. -/

set_option autoImplicit false

namespace Odin32.DsMixer

open ByteMemory Word

/-! ## What a buffer adds -/

namespace SndBuf

variable (b : SndBuf) (outrate : ℕ)

/-- Where a frame of the output is read, unless the buffer has come to its end. -/
def place (k : ℕ) : Option ℕ :=
  let p := b.inpos + k * b.spd outrate
  if b.fLoop then some (p % b.len) else if p < b.len then some p else none

/-- A sample of a channel in 16 bits, with the value in the middle at zero. -/
def sample (ch p : ℕ) : ℤ :=
  let j := p / 1024 * b.shape.nChannels + ch % b.shape.nChannels
  if b.shape.wBitsPerSample = 16 then (word b.lpBuffer (2 * j) 2 : ℤ).bmod 0x10000
  else ((b.lpBuffer j).toNat - 128) * 256

/-- The volume of a channel. -/
def vol (ch : ℕ) : ℤ :=
  if ch = 0 then if b.pan ≤ 0 then b.volume else (b.volume * (256 - b.pan)).tdiv 256
  else if b.pan ≥ 0 then b.volume else (b.volume * (256 + b.pan)).tdiv 256

/-- What a buffer adds to a channel of a frame. -/
def adds (ch k : ℕ) : ℤ :=
  if b.fPlaying then
    match b.place outrate k with
    | some p => (b.sample ch p * b.vol ch).tdiv 256
    | none => 0
  else 0

/-- A buffer with its position inside and a step shorter than the buffer, whose positions fit an
`int`. -/
structure Steps : Prop where
  playpos_lt : b.playpos < b.shape.dwBufferBytes
  frac : 0 ≤ b.frac ∧ b.frac < 1024
  short : b.spd outrate < b.len
  len_lt : b.len < 0x80000000
  past_lt : b.len + b.spd outrate ≤ 0x80000000

end SndBuf

namespace State

variable (s : State)

def outrate : ℕ := s.primary.format.nSamplesPerSec

/-- `cbMix` for so many frames of a stereo primary buffer. -/
def frameBytes (frames : ℕ) : ℕ := frames * (s.primary.format.wBitsPerSample / 8 * 2)

def sum (ch k : ℕ) : ℤ := (s.buffers.map fun b => b.adds s.outrate ch k).sum

/-- A stereo mixer at rest between two calls. -/
structure Ready : Prop where
  stereo : s.primary.format.nChannels = 2
  room : s.ulMixerBufferSize ≤ s.mix.room
  ring : s.primary.playpos < bufferSize
  steps : ∀ b ∈ s.buffers, b.fPlaying = true → b.Steps s.outrate

end State

/-- The bytes of a sample, clamped to the output range. -/
def clamped (outbits : ℕ) (v : ℤ) : List UInt8 :=
  let v := max (-32768) (min 32767 v)
  if outbits = 16 then [byteOf (ulong v) 0, byteOf (ulong v) 1]
  else [byteOf (ulong (v.tdiv 256 + 128)) 0]

/-- The bytes of the output for so many frames, from a value for each channel of each frame. -/
def output (outbits frames : ℕ) (value : ℕ → ℕ → ℤ) : List UInt8 :=
  (List.range (frames * 2)).flatMap fun i => clamped outbits (value (i % 2) (i / 2))

/-- Two states that nothing outside of the mixer can tell apart. -/
structure SameSound (s t : State) : Prop where
  samples : s.primary.lpBuffer = t.primary.lpBuffer
  playpos : s.primary.playpos = t.primary.playpos
  buffers : s.buffers = t.buffers

/-- What mixing `a` and then `b` frames leaves, with the output from a value for each channel of
each frame. -/
structure ChunksGive (s : State) (a b : ℕ) (value : ℕ → ℕ → ℤ) : Prop where
  same : SameSound ((s.mixFunc (s.frameBytes a) true).mixFunc (s.frameBytes b) true)
    (s.mixFunc (s.frameBytes (a + b)) true)
  output : (s.mixFunc (s.frameBytes (a + b)) true).primary.written =
    output s.primary.format.wBitsPerSample (a + b) value

/-- The volume and the pan are such as the calls that set them leave. -/
def SndBuf.Set (b : SndBuf) : Prop := (0 ≤ b.volume ∧ b.volume ≤ 255) ∧ -255 ≤ b.pan ∧ b.pan ≤ 255

/-! ## Positions -/

/-- The position of `mixLoop` after so many frames. -/
def positions (fLoop : Bool) (spd len : ℤ) : ℕ → ℤ → ℤ × Bool
  | 0, inpos => (inpos, false)
  | left + 1, inpos =>
    let inpos := long (inpos + spd)
    if inpos ≥ len then
      if fLoop then positions fLoop spd len left (long (inpos - len)) else (inpos, true)
    else positions fLoop spd len left inpos

theorem mixLoop_positions (frame : ℤ → Option (ℤ × ℤ)) (fLoop : Bool) (spd len : ℤ) (left i : ℕ)
    (inpos : ℤ) (m : MixBuf) :
    (mixLoop frame fLoop spd len left i inpos m).1 = (positions fLoop spd len left inpos).1 ∧
      (mixLoop frame fLoop spd len left i inpos m).2.1 =
        (positions fLoop spd len left inpos).2 := by
  induction left generalizing i inpos m with
  | zero => exact ⟨rfl, rfl⟩
  | succ left ih =>
    rw [mixLoop, positions]
    by_cases past : long (inpos + spd) ≥ len
    · rw [if_pos past, if_pos past]
      cases fLoop with
      | true => exact ih _ _ _
      | false => exact ⟨rfl, rfl⟩
    · rw [if_neg past, if_neg past]
      exact ih _ _ _

theorem positions_add (fLoop : Bool) (spd len : ℤ) (a b : ℕ) (inpos : ℤ) :
    positions fLoop spd len (a + b) inpos =
      if (positions fLoop spd len a inpos).2 then positions fLoop spd len a inpos
      else positions fLoop spd len b (positions fLoop spd len a inpos).1 := by
  induction a generalizing inpos with
  | zero => rw [Nat.zero_add]; rfl
  | succ a ih =>
    rw [Nat.succ_add, positions, positions]
    by_cases past : long (inpos + spd) ≥ len
    · rw [if_pos past, if_pos past]
      cases fLoop with
      | true => exact ih _
      | false => rfl
    · rw [if_neg past, if_neg past]
      exact ih _

/-- Where the frame `k` is read from a position on. -/
def placeFrom (fLoop : Bool) (spd len p k : ℕ) : Option ℕ :=
  if fLoop then some ((p + k * spd) % len)
  else if p + k * spd < len then some (p + k * spd) else none

theorem place_eq (b : SndBuf) (outrate k : ℕ) :
    b.place outrate k = placeFrom b.fLoop (b.spd outrate) b.len b.inpos k := rfl

section Walk

variable {fLoop : Bool} {spd len p : ℕ}

/-- The position behind a frame. -/
def next (spd len p : ℕ) : ℕ := if p + spd < len then p + spd else p + spd - len

theorem placeFrom_zero (inside : p < len) : placeFrom fLoop spd len p 0 = some p := by
  rw [placeFrom, Nat.zero_mul, Nat.add_zero, Nat.mod_eq_of_lt inside, if_pos inside, ite_self]

theorem next_lt (inside : p < len) (short : spd < len) : next spd len p < len := by
  unfold next
  split_ifs <;> omega

theorem placeFrom_next (goesOn : fLoop = true ∨ p + spd < len) (k : ℕ) :
    placeFrom fLoop spd len p (k + 1) = placeFrom fLoop spd len (next spd len p) k := by
  rw [placeFrom, placeFrom, next, Nat.succ_mul]
  by_cases more : p + spd < len
  · rw [if_pos more, show p + (k * spd + spd) = p + spd + k * spd by omega]
  · rw [if_neg more, if_pos (goesOn.resolve_right more), if_pos (goesOn.resolve_right more),
      ← Nat.add_mod_right (p + spd - len + k * spd)]
    congr 2
    omega

theorem placeFrom_end (loop : fLoop = false) (ends : len ≤ p + spd) (k : ℕ) :
    placeFrom fLoop spd len p (k + 1) = none := by
  rw [placeFrom, loop, if_neg Bool.false_ne_true, if_neg]
  rw [Nat.succ_mul]
  omega

theorem positions_next (past : len + spd ≤ 0x80000000) (inside : p < len)
    (goesOn : fLoop = true ∨ p + spd < len) (left : ℕ) :
    positions fLoop spd len (left + 1) p =
      positions fLoop spd len left ((next spd len p : ℕ) : ℤ) := by
  have step : long ((p : ℤ) + spd) = (p + spd : ℕ) := by
    rw [← Nat.cast_add]
    exact long_of_lt (by omega)
  rw [positions, step, next]
  by_cases more : p + spd < len
  · rw [if_neg (by omega), if_pos more]
  · have lap : long (((p + spd : ℕ) : ℤ) - len) = (p + spd - len : ℕ) := by
      rw [show ((p + spd : ℕ) : ℤ) - len = (p + spd - len : ℕ) by omega]
      exact long_of_lt (by omega)
    rw [if_pos (by omega), if_pos (goesOn.resolve_right more), lap, if_neg more]

theorem positions_end (past : len + spd ≤ 0x80000000) (inside : p < len)
    (loop : fLoop = false) (ends : len ≤ p + spd) (left : ℕ) :
    positions fLoop spd len (left + 1) p = (((p + spd : ℕ) : ℤ), true) := by
  have step : long ((p : ℤ) + spd) = (p + spd : ℕ) := by
    rw [← Nat.cast_add]
    exact long_of_lt (by omega)
  rw [positions, step, if_pos (by omega), loop, if_neg Bool.false_ne_true]

/-- What a buffer reads after `n` frames is what it reads `n` frames later; a buffer that has come
to its end reads nothing. -/
theorem positions_spec (fLoop : Bool) (past : len + spd ≤ 0x80000000) (short : spd < len)
    (inside : p < len) (n : ℕ) : ∃ (q : ℕ) (ends : Bool),
      positions fLoop spd len n p = ((q : ℤ), ends) ∧ q < len + spd ∧
      (ends = false → q < len ∧ ∀ k, placeFrom fLoop spd len q k =
        placeFrom fLoop spd len p (n + k)) ∧
      (ends = true → ∀ k, placeFrom fLoop spd len p (n + k) = none) := by
  induction n generalizing p with
  | zero =>
    refine ⟨p, false, rfl, by omega, fun _ => ⟨inside, fun k => ?_⟩, fun h => Bool.noConfusion h⟩
    rw [Nat.zero_add]
  | succ n ih =>
    by_cases goesOn : fLoop = true ∨ p + spd < len
    · obtain ⟨q, ends, eq, lt, on, done⟩ := ih (next_lt inside short)
      refine ⟨q, ends, (positions_next past inside goesOn n).trans eq, lt, ?_, ?_⟩
      · intro plays
        refine ⟨(on plays).1, fun k => ?_⟩
        rw [(on plays).2 k, Nat.succ_add, placeFrom_next goesOn]
      · intro ended k
        rw [Nat.succ_add, placeFrom_next goesOn]
        exact done ended k
    · have loop : fLoop = false := by
        by_contra h
        exact goesOn (.inl (by simpa using h))
      have far : len ≤ p + spd := by
        by_contra h
        exact goesOn (.inr (by omega))
      refine ⟨p + spd, true, positions_end past inside loop far n, by omega,
        fun h => Bool.noConfusion h, fun _ k => ?_⟩
      rw [Nat.succ_add]
      exact placeFrom_end loop far (n + k)

end Walk

/-! ## One buffer in `mixbuf` -/

/-- What a walk from a position adds to a channel of the frame `k`. -/
def addsFrom (fLoop : Bool) (spd len p : ℕ) (value : ℕ → ℕ → ℤ) (ch k : ℕ) : ℤ :=
  match placeFrom fLoop spd len p k with
  | some q => value ch q
  | none => 0

theorem add_mixbuf {m : MixBuf} {i : ℕ} (inside : i < m.room) (v : ℤ) (j : ℕ) :
    (m.add i v).mixbuf j = if j = i then long (m.mixbuf j + v) else m.mixbuf j := by
  rw [MixBuf.add, if_pos inside]

theorem addFrame_other (m : MixBuf) {i j : ℕ} (other : j < 2 * i ∨ 2 * (i + 1) ≤ j)
    (v : Option (ℤ × ℤ)) : (m.addFrame i v).mixbuf j = m.mixbuf j := by
  have apart : ∀ (m : MixBuf) (k : ℕ) (v : ℤ), j ≠ k → (m.add k v).mixbuf j = m.mixbuf j := by
    intro m k v ne
    unfold MixBuf.add
    split_ifs
    · exact if_neg ne
    · rfl
  cases v with
  | none => rfl
  | some v =>
    show ((m.add (2 * i) v.1).add (2 * i + 1) v.2).mixbuf j = m.mixbuf j
    rw [apart _ _ _ (by omega), apart _ _ _ (by omega)]

theorem addFrame_this {m : MixBuf} {i j : ℕ} (room : 2 * (i + 1) ≤ m.room) (here : j / 2 = i)
    (value : ℕ → ℤ) :
    (m.addFrame i (some (value 0, value 1))).mixbuf j = long (m.mixbuf j + value (j % 2)) := by
  show ((m.add (2 * i) (value 0)).add (2 * i + 1) (value 1)).mixbuf j = _
  rw [add_mixbuf (by rw [add_room]; omega), add_mixbuf (by omega)]
  by_cases left : j = 2 * i
  · rw [if_neg (by omega), if_pos left, show j % 2 = 0 by omega]
  · rw [if_pos (by omega), if_neg left, show j % 2 = 1 by omega]

theorem mixLoop_before (frame : ℤ → Option (ℤ × ℤ)) (fLoop : Bool) (spd len : ℤ) (left i : ℕ)
    (inpos : ℤ) (m : MixBuf) {j : ℕ} (before : j < 2 * i) :
    (mixLoop frame fLoop spd len left i inpos m).2.2.mixbuf j = m.mixbuf j := by
  induction left generalizing i inpos m with
  | zero => rfl
  | succ left ih =>
    have kept := addFrame_other m (.inl before) (frame inpos)
    rw [mixLoop]
    by_cases past : long (inpos + spd) ≥ len
    · rw [if_pos past]
      cases fLoop with
      | true => exact (ih _ _ _ (by omega)).trans kept
      | false => exact kept
    · rw [if_neg past]
      exact (ih _ _ _ (by omega)).trans kept

theorem mixLoop_next (frame : ℤ → Option (ℤ × ℤ)) {fLoop : Bool} {spd len p : ℕ}
    (past : len + spd ≤ 0x80000000) (inside : p < len) (goesOn : fLoop = true ∨ p + spd < len)
    (left i : ℕ) (m : MixBuf) :
    mixLoop frame fLoop spd len (left + 1) i p m =
      mixLoop frame fLoop spd len left (i + 1) ((next spd len p : ℕ) : ℤ)
        (m.addFrame i (frame p)) := by
  have step : long ((p : ℤ) + spd) = (p + spd : ℕ) := by
    rw [← Nat.cast_add]
    exact long_of_lt (by omega)
  rw [mixLoop, step, next]
  by_cases more : p + spd < len
  · rw [if_neg (by omega), if_pos more]
  · have lap : long (((p + spd : ℕ) : ℤ) - len) = (p + spd - len : ℕ) := by
      rw [show ((p + spd : ℕ) : ℤ) - len = (p + spd - len : ℕ) by omega]
      exact long_of_lt (by omega)
    rw [if_pos (by omega), if_pos (goesOn.resolve_right more), lap, if_neg more]

theorem mixLoop_end (frame : ℤ → Option (ℤ × ℤ)) {fLoop : Bool} {spd len p : ℕ}
    (past : len + spd ≤ 0x80000000) (inside : p < len) (loop : fLoop = false)
    (ends : len ≤ p + spd) (left i : ℕ) (m : MixBuf) :
    (mixLoop frame fLoop spd len (left + 1) i p m).2.2 = m.addFrame i (frame p) := by
  have step : long ((p : ℤ) + spd) = (p + spd : ℕ) := by
    rw [← Nat.cast_add]
    exact long_of_lt (by omega)
  rw [mixLoop, step, if_pos (by omega), loop, if_neg Bool.false_ne_true]

theorem mixLoop_adds (frame : ℤ → Option (ℤ × ℤ)) (value : ℕ → ℕ → ℤ) {fLoop : Bool}
    {spd len : ℕ} (reads : ∀ q < len, frame (q : ℕ) = some (value 0 q, value 1 q))
    (past : len + spd ≤ 0x80000000) (short : spd < len) (left i : ℕ) {p : ℕ} (inside : p < len)
    {m : MixBuf} (room : 2 * (i + left) ≤ m.room) {j : ℕ} (low : 2 * i ≤ j)
    (high : j < 2 * (i + left)) (fits : long (m.mixbuf j) = m.mixbuf j) :
    (mixLoop frame fLoop spd len left i p m).2.2.mixbuf j =
      long (m.mixbuf j + addsFrom fLoop spd len p value (j % 2) (j / 2 - i)) := by
  induction left generalizing i p m with
  | zero => omega
  | succ left ih =>
    have first : (m.addFrame i (frame p)).room = m.room :=
      (addFrame_inside (by omega) (by rw [reads p inside]; rfl)).2
    by_cases goesOn : fLoop = true ∨ p + spd < len
    · rw [mixLoop_next frame past inside goesOn]
      by_cases here : j / 2 = i
      · rw [mixLoop_before _ _ _ _ _ _ _ _ (by omega), reads p inside,
          addFrame_this (by omega) here fun ch => value ch p, here, Nat.sub_self, addsFrom,
          placeFrom_zero inside]
      · have kept := addFrame_other m (j := j) (i := i) (.inr (by omega)) (frame p)
        rw [ih (i + 1) (next_lt inside short) (by rw [first]; omega) (by omega) (by omega)
          (by rw [kept, fits]), kept, addsFrom, addsFrom, ← placeFrom_next goesOn]
        congr 4
        omega
    · have loop : fLoop = false := by
        by_contra h
        exact goesOn (.inl (by simpa using h))
      have far : len ≤ p + spd := by
        by_contra h
        exact goesOn (.inr (by omega))
      rw [mixLoop_end frame past inside loop far]
      by_cases here : j / 2 = i
      · rw [reads p inside, addFrame_this (by omega) here fun ch => value ch p, here,
          Nat.sub_self, addsFrom, placeFrom_zero inside]
      · rw [addFrame_other m (.inr (by omega)), addsFrom,
          show j / 2 - i = j / 2 - i - 1 + 1 by omega, placeFrom_end loop far]
        rw [Int.add_zero, fits]

/-! ## One buffer -/

section OneBuffer

variable {b : SndBuf} {outrate : ℕ}

theorem frame_eq (vol1 vol2 : ℤ) {p : ℕ} (inside : p < b.len) : b.frame vol1 vol2 p =
    some ((b.sample 0 p * vol1).tdiv 256, (b.sample 1 p * vol2).tdiv 256) := by
  have whole := b.shape.samples_mul
  have frames : p / 1024 < b.shape.samples := by
    unfold SndBuf.len at inside
    omega
  have scaled : ∀ x vol : ℤ, (x * 256 * vol).tdiv 256 = x * vol := by
    intro x vol
    rw [show x * 256 * vol = x * vol * 256 by ring]
    exact Int.mul_tdiv_cancel _ (by decide)
  have read16 : ∀ j : ℕ, 2 * j + 2 ≤ b.shape.dwBufferBytes →
      b.data16b j = some ((word b.lpBuffer (2 * j) 2 : ℤ).bmod 0x10000) := by
    intro j lt
    rw [SndBuf.data16b, if_pos (by omega), Int.toNat_natCast]
  have read8 : ∀ j : ℕ, j + 1 ≤ b.shape.dwBufferBytes →
      b.data8b j = some ((b.lpBuffer j).toNat - 128 : ℤ) := by
    intro j lt
    rw [SndBuf.data8b, if_pos (by omega), Int.toNat_natCast]
  unfold SndBuf.frame SndBuf.sample
  rcases b.shape.bytespersample_cases with ⟨nch, bits, bps⟩ | ⟨nch, bits, bps⟩ | ⟨nch, bits, bps⟩ |
      ⟨nch, bits, bps⟩ <;> rw [bps] at whole
  · have left := read16 (p / 1024 * 2) (by omega)
    have right := read16 (p / 1024 * 2 + 1) (by omega)
    rw [if_pos ⟨nch, bits⟩, nch, bits, SndBuf.stereo16, tdiv_1024]
    push_cast at left right ⊢
    rw [left, right]
    rfl
  · have mono := read16 (p / 1024) (by omega)
    rw [if_neg (by omega), if_pos ⟨nch, bits⟩, nch, bits, SndBuf.mono16]
    dsimp only
    rw [tdiv_1024, mono, Nat.mul_one, Nat.mod_one, Nat.add_zero, if_pos rfl]
    simp only [Option.bind_eq_bind, Option.bind_some]
  · have left := read8 (p / 1024 * 2) (by omega)
    have right := read8 (p / 1024 * 2 + 1) (by omega)
    rw [if_neg (by omega), if_neg (by omega), if_pos ⟨nch, bits⟩, nch, bits, SndBuf.stereo8,
      tdiv_1024]
    push_cast at left right ⊢
    rw [left, right]
    simp [scaled]
  · have mono := read8 (p / 1024) (by omega)
    rw [if_neg (by omega), if_neg (by omega), if_neg (by omega), nch, bits, SndBuf.mono8]
    dsimp only
    rw [tdiv_1024, mono, Nat.mul_one, Nat.mod_one, Nat.add_zero]
    simp [scaled]

/-- The buffer with the position its loop has come to. -/
def SndBuf.settle (b : SndBuf) (reached : ℤ × Bool) : SndBuf :=
  let playpos := ulong (reached.1.tdiv 1024 * b.shape.bytespersample)
  { b with
    playpos := playpos
    frac := reached.1.tmod 1024
    fPlaying := b.fPlaying && !reached.2
    writepos := add32 playpos (u32 (b.frequency * b.shape.bytespersample) / 67) %
      b.shape.dwBufferBytes }

/-- The buffer once so many frames are mixed. -/
def SndBuf.moved (b : SndBuf) (outrate frames : ℕ) : SndBuf :=
  b.settle (positions b.fLoop (b.spd outrate) b.len frames b.inpos)

namespace SndBuf

theorem Steps.inpos_lt (steps : b.Steps outrate) : b.inpos < b.len := by
  have whole := b.shape.samples_mul
  have frames : b.playpos / b.shape.bytespersample < b.shape.samples := by
    apply Nat.div_lt_of_lt_mul
    rw [Nat.mul_comm, whole]
    exact steps.playpos_lt
  have frac := steps.frac
  unfold inpos len
  omega

theorem mixOneBuffer_eq (steps : b.Steps outrate) (m : MixBuf) (frames : ℕ) :
    mixOneBuffer b m frames outrate = (b.moved outrate frames,
      (mixLoop (b.frame (b.vol 0) (b.vol 1)) b.fLoop (b.spd outrate) b.len frames 0 b.inpos
        m).2.2) := by
  have lt := steps.inpos_lt
  have past := steps.past_lt
  have short := steps.short
  have frac := steps.frac
  have start : (b.playpos : ℤ) / b.shape.bytespersample * 1024 + b.frac = b.inpos := by
    unfold inpos
    push_cast
    omega
  have spd : ((u32 (1024 * b.frequency) : ℕ) : ℤ) / outrate = b.spd outrate := rfl
  have len : (b.shape.dwBufferBytes : ℤ) / b.shape.bytespersample * 1024 = b.len := rfl
  have ends := mixLoop_positions (b.frame (b.vol 0) (b.vol 1)) b.fLoop (b.spd outrate) b.len
    frames 0 b.inpos m
  unfold mixOneBuffer moved settle
  dsimp only
  rw [start, spd, len, long_of_lt (n := b.inpos) (by omega),
    long_of_lt (n := b.spd outrate) (by omega)]
  rw [long_of_lt (n := b.len) steps.len_lt, ← ends.1, ← ends.2]
  rfl

theorem settle_settle (b : SndBuf) (first : ℤ) (second : ℤ × Bool) :
    (b.settle (first, false)).settle second = b.settle second := by
  unfold settle
  dsimp only
  rw [Bool.not_false, Bool.and_true]

theorem settle_inpos (b : SndBuf) {q : ℕ} (lt : q < 0x80000000) (ends : Bool) :
    (b.settle (q, ends)).inpos = q ∧ 0 ≤ (b.settle (q, ends)).frac ∧
      (b.settle (q, ends)).frac < 1024 ∧
      (b.settle (q, ends)).playpos = q / 1024 * b.shape.bytespersample := by
  have pos := b.shape.bytespersample_pos
  have fracs : (b.settle (q, ends)).frac = (q % 1024 : ℕ) := by
    show (q : ℤ).tmod 1024 = _
    rw [Int.tmod_eq_emod_of_nonneg (by omega)]
    omega
  have bytes : (b.settle (q, ends)).playpos = q / 1024 * b.shape.bytespersample := by
    have cursor : (q : ℤ).tdiv 1024 * b.shape.bytespersample =
        (q / 1024 * b.shape.bytespersample : ℕ) := by
      rw [tdiv_1024]
      push_cast
      rfl
    show ulong ((q : ℤ).tdiv 1024 * b.shape.bytespersample) = _
    rw [cursor]
    apply ulong_of_lt
    rcases b.shape.bytespersample_cases with h | h | h | h <;> rw [h.2.2] <;> omega
  refine ⟨?_, by omega, by omega, bytes⟩
  rw [inpos, bytes, fracs, show (b.settle (q, ends)).shape = b.shape from rfl,
    Nat.mul_div_cancel _ pos]
  omega

theorem moved_spec (steps : b.Steps outrate) (playing : b.fPlaying = true) (frames : ℕ) :
    (∀ later, (b.moved outrate frames).fPlaying = true →
      (b.moved outrate frames).moved outrate later = b.moved outrate (frames + later)) ∧
    (∀ later, (b.moved outrate frames).fPlaying = false →
      b.moved outrate (frames + later) = b.moved outrate frames) ∧
    ((b.moved outrate frames).fPlaying = true → (b.moved outrate frames).Steps outrate) ∧
    ∀ ch k, (b.moved outrate frames).adds outrate ch k = b.adds outrate ch (frames + k) := by
  obtain ⟨q, ends, reached, lt, on, done⟩ := positions_spec b.fLoop steps.past_lt
    steps.short steps.inpos_lt frames
  have past := steps.past_lt
  have at_ : b.moved outrate frames = b.settle (q, ends) := congrArg b.settle reached
  obtain ⟨stands, low, high, bytes⟩ := b.settle_inpos (q := q) (by omega) ends
  have plays : (b.settle (q, ends)).fPlaying = !ends := by
    show (b.fPlaying && !ends) = _
    rw [playing, Bool.true_and]
  have split := fun later => positions_add b.fLoop (b.spd outrate) b.len frames later b.inpos
  simp only [reached] at split
  rw [at_]
  refine ⟨?_, ?_, ?_, ?_⟩
  · intro later goesOn
    rw [plays, Bool.not_eq_true'] at goesOn
    subst goesOn
    show (b.settle (q, false)).settle (positions b.fLoop (b.spd outrate) b.len later
      (b.settle (q, false)).inpos) = b.settle (positions _ _ _ _ _)
    rw [stands, settle_settle, split later, if_neg Bool.false_ne_true]
  · intro later stopped
    rw [plays, Bool.not_eq_false'] at stopped
    subst stopped
    show b.settle (positions _ _ _ _ _) = _
    rw [split later, if_pos rfl]
  · intro goesOn
    rw [plays, Bool.not_eq_true'] at goesOn
    have inside := (on goesOn).1
    have whole := b.shape.samples_mul
    have frame : q / 1024 < b.shape.samples := by
      unfold len at inside
      omega
    refine ⟨?_, ⟨low, high⟩, steps.short, steps.len_lt, past⟩
    rw [bytes]
    show _ < b.shape.dwBufferBytes
    rw [← whole]
    exact Nat.mul_lt_mul_of_pos_right frame b.shape.bytespersample_pos
  · intro ch k
    unfold adds
    rw [plays, playing, if_pos rfl, place_eq, place_eq]
    show (if (!ends) = true then
      match placeFrom b.fLoop (b.spd outrate) b.len (b.settle (q, ends)).inpos k with
      | some p => (b.sample ch p * b.vol ch).tdiv 256
      | none => 0 else 0) = _
    rw [stands]
    cases ends with
    | false => rw [(on rfl).2 k]; rfl
    | true => rw [done rfl k]; rfl

theorem mixOneBuffer_adds (steps : b.Steps outrate) (playing : b.fPlaying = true) {m : MixBuf}
    {frames : ℕ} (room : 2 * frames ≤ m.room) :
    (mixOneBuffer b m frames outrate).2.room = m.room ∧
      ∀ j < 2 * frames, long (m.mixbuf j) = m.mixbuf j →
        (mixOneBuffer b m frames outrate).2.mixbuf j =
          long (m.mixbuf j + b.adds outrate (j % 2) (j / 2)) := by
  have past := steps.past_lt
  have short := steps.short
  have inside := steps.inpos_lt
  have reads : ∀ q < b.len, b.frame (b.vol 0) (b.vol 1) (q : ℕ) =
      some ((b.sample 0 q * b.vol 0).tdiv 256, (b.sample 1 q * b.vol 1).tdiv 256) :=
    fun q lt => frame_eq _ _ lt
  rw [mixOneBuffer_eq steps]
  constructor
  · obtain ⟨_, _, m', eq, _, room', _⟩ := @mixLoop_inside (b.frame (b.vol 0) (b.vol 1)) b.fLoop
      (b.spd outrate) b.len frames 0 b.inpos m
      (fun q lt => by rw [reads q lt]; rfl) past inside
      (fun _ => by rw [show b.spd outrate - b.len = 0 by omega]; omega) (by omega)
    rw [eq]
    exact room'
  · intro j lt fits
    rw [mixLoop_adds _ (fun ch q => (b.sample ch q * b.vol ch).tdiv 256) reads past short frames 0
      inside (by omega) (by omega) (by omega) fits, adds, playing, if_pos rfl, place_eq, addsFrom,
      Nat.sub_zero]

end SndBuf

end OneBuffer

/-! ## All buffers -/

/-- What `MixFunc` makes of a buffer. -/
def movedOne (outrate frames : ℕ) (b : SndBuf) : SndBuf :=
  if b.fPlaying then b.moved outrate frames else b

/-- The buffers once so many frames are mixed. -/
def movedAll (outrate frames : ℕ) (buffers : List SndBuf) : List SndBuf :=
  buffers.map (movedOne outrate frames)

theorem movedOne_playing {b : SndBuf} (playing : b.fPlaying = true) (outrate frames : ℕ) :
    movedOne outrate frames b = b.moved outrate frames := if_pos playing

theorem movedOne_stopped {b : SndBuf} (stopped : ¬ b.fPlaying = true) (outrate frames : ℕ) :
    movedOne outrate frames b = b := if_neg stopped

variable (outrate : ℕ)

theorem adds_stopped {b : SndBuf} (stopped : b.fPlaying = false) (ch k : ℕ) :
    b.adds outrate ch k = 0 := by
  rw [SndBuf.adds, stopped, if_neg Bool.false_ne_true]

theorem long_long (n : ℤ) : long (long n) = long n := Int.bmod_bmod

theorem long_add (n k : ℤ) : long (long n + k) = long (n + k) := Int.bmod_add_bmod

theorem mixBuffers_spec {frames : ℕ} {buffers : List SndBuf}
    (steps : ∀ b ∈ buffers, b.fPlaying = true → b.Steps outrate) {m : MixBuf}
    (room : 2 * frames ≤ m.room) :
    (mixBuffers frames outrate buffers m).1 = movedAll outrate frames buffers ∧
      (mixBuffers frames outrate buffers m).2.room = m.room ∧
      ∀ j < 2 * frames, long (m.mixbuf j) = m.mixbuf j →
        (mixBuffers frames outrate buffers m).2.mixbuf j =
          long (m.mixbuf j + (buffers.map fun b => b.adds outrate (j % 2) (j / 2)).sum) := by
  induction buffers generalizing m with
  | nil =>
    refine ⟨rfl, rfl, fun j _ fits => ?_⟩
    rw [List.map_nil, List.sum_nil, Int.add_zero, fits]
    rfl
  | cons b rest ih =>
    have later := fun c (mem : c ∈ rest) => steps c (List.mem_cons_of_mem b mem)
    unfold mixBuffers movedAll
    rw [List.map_cons]
    by_cases playing : b.fPlaying = true
    · have this := steps b List.mem_cons_self playing
      obtain ⟨room', adds⟩ := SndBuf.mixOneBuffer_adds this playing room
      obtain ⟨moved, rest_room, rest_adds⟩ := ih later
        (m := (mixOneBuffer b m frames outrate).2) (by rw [room']; exact room)
      rw [if_pos playing, movedOne_playing playing]
      refine ⟨?_, rest_room.trans room', ?_⟩
      · show (mixOneBuffer b m frames outrate).1 :: _ = _
        rw [moved, SndBuf.mixOneBuffer_eq this]
        rfl
      · intro j lt fits
        have first := adds j lt fits
        show (mixBuffers frames outrate rest (mixOneBuffer b m frames outrate).2).2.mixbuf j = _
        rw [rest_adds j lt (by rw [first, long_long]), first, long_add, List.map_cons,
          List.sum_cons, Int.add_assoc]
    · have stopped : b.fPlaying = false := by simpa using playing
      obtain ⟨moved, rest_room, rest_adds⟩ := ih later room
      rw [if_neg playing, movedOne_stopped playing]
      refine ⟨?_, rest_room, ?_⟩
      · show b :: _ = _
        rw [moved]
        rfl
      · intro j lt fits
        show (mixBuffers frames outrate rest m).2.mixbuf j = _
        rw [rest_adds j lt fits, List.map_cons, List.sum_cons, adds_stopped outrate stopped,
          Int.zero_add]

theorem movedAll_add {buffers : List SndBuf}
    (steps : ∀ b ∈ buffers, b.fPlaying = true → b.Steps outrate) (a c : ℕ) :
    movedAll outrate c (movedAll outrate a buffers) = movedAll outrate (a + c) buffers := by
  unfold movedAll
  rw [List.map_map]
  apply List.map_congr_left
  intro b mem
  rw [Function.comp]
  by_cases playing : b.fPlaying = true
  · have spec := SndBuf.moved_spec (steps b mem playing) playing a
    rw [movedOne_playing playing, movedOne_playing playing]
    by_cases goesOn : (b.moved outrate a).fPlaying = true
    · rw [movedOne_playing goesOn, spec.1 c goesOn]
    · rw [movedOne_stopped goesOn, spec.2.1 c (by simpa using goesOn)]
  · rw [movedOne_stopped playing, movedOne_stopped playing, movedOne_stopped playing]

theorem movedAll_steps {buffers : List SndBuf}
    (steps : ∀ b ∈ buffers, b.fPlaying = true → b.Steps outrate) (a : ℕ) :
    ∀ b ∈ movedAll outrate a buffers, b.fPlaying = true → b.Steps outrate := by
  intro b mem goesOn
  obtain ⟨c, mem_c, rfl⟩ := List.mem_map.mp mem
  by_cases playing : c.fPlaying = true
  · rw [movedOne_playing playing] at goesOn ⊢
    exact (SndBuf.moved_spec (steps c mem_c playing) playing a).2.2.1 goesOn
  · rw [movedOne_stopped playing] at goesOn
    exact absurd goesOn playing

theorem movedAll_adds {buffers : List SndBuf}
    (steps : ∀ b ∈ buffers, b.fPlaying = true → b.Steps outrate) (a ch k : ℕ) :
    ((movedAll outrate a buffers).map fun b => b.adds outrate ch k).sum =
      (buffers.map fun b => b.adds outrate ch (a + k)).sum := by
  unfold movedAll
  rw [List.map_map]
  congr 1
  apply List.map_congr_left
  intro b mem
  rw [Function.comp]
  by_cases playing : b.fPlaying = true
  · rw [movedOne_playing playing]
    exact (SndBuf.moved_spec (steps b mem playing) playing a).2.2.2 ch k
  · have stopped : b.fPlaying = false := by simpa using playing
    rw [movedOne_stopped playing, adds_stopped outrate stopped, adds_stopped outrate stopped]

/-! ## The primary buffer -/

theorem outBytes_eq (format : OutFormat) (v : ℤ) :
    outBytes format.wBitsPerSample v = clamped format.wBitsPerSample v := by
  unfold outBytes clamped
  have low : v ≤ -32768 → max (-32768) (min 32767 v) = -32768 := by omega
  have high : v ≥ 32767 → max (-32768) (min 32767 v) = 32767 := by omega
  have between : ¬ v ≤ -32768 → ¬ v ≥ 32767 → max (-32768) (min 32767 v) = v := by omega
  dsimp only
  by_cases h : v ≤ -32768
  · rw [if_pos h, if_pos h, low h]
    rfl
  · rw [if_neg h, if_neg h]
    by_cases h' : v ≥ 32767
    · rw [if_pos h', if_pos h', high h']
      rfl
    · rw [if_neg h', if_neg h', between h h']

theorem put_same {out out' : OutBuf} (same : out.lpBuffer = out'.lpBuffer) (a : ℕ)
    (bytes : List UInt8) : (out.put a bytes).lpBuffer = (out'.put a bytes).lpBuffer := by
  induction bytes generalizing out out' a with
  | nil => exact same
  | cons byte bytes ih =>
    unfold OutBuf.put
    by_cases inside : a < bufferSize
    · rw [if_pos inside, if_pos inside]
      apply ih
      dsimp only
      rw [same]
    · rw [if_neg inside, if_neg inside]
      dsimp only
      apply ih
      exact same

theorem put_written (out : OutBuf) {a : ℕ} {bytes : List UInt8}
    (inside : a + bytes.length ≤ bufferSize) :
    (out.put a bytes).written = out.written ++ bytes := by
  induction bytes generalizing out a with
  | nil => exact (List.append_nil _).symm
  | cons byte bytes ih =>
    rw [List.length_cons] at inside
    unfold OutBuf.put
    rw [if_pos (by omega), ih _ (by omega), List.append_assoc]
    rfl

section OutLoop

variable (mixbuf : ℕ → ℤ) (outbits outlen : ℕ)

theorem outLoop_same {mixbuf' : ℕ → ℤ} (left i i' outpos : ℕ) {out out' : OutBuf}
    (elements : ∀ k < left, mixbuf (i + k) = mixbuf' (i' + k))
    (same : out.lpBuffer = out'.lpBuffer) :
    (outLoop mixbuf outbits outlen left i outpos out).1 =
        (outLoop mixbuf' outbits outlen left i' outpos out').1 ∧
      (outLoop mixbuf outbits outlen left i outpos out).2.lpBuffer =
        (outLoop mixbuf' outbits outlen left i' outpos out').2.lpBuffer := by
  induction left generalizing i i' outpos out out' with
  | zero => exact ⟨rfl, same⟩
  | succ left ih =>
    have first := elements 0 (by omega)
    rw [Nat.add_zero, Nat.add_zero] at first
    unfold outLoop
    dsimp only
    rw [first]
    apply ih
    · intro k lt
      have := elements (k + 1) (by omega)
      rw [show i + 1 + k = i + (k + 1) by omega, show i' + 1 + k = i' + (k + 1) by omega, this]
    · exact put_same same _ _

theorem outLoop_add (first later i outpos : ℕ) (out : OutBuf) :
    outLoop mixbuf outbits outlen (first + later) i outpos out =
      outLoop mixbuf outbits outlen later (i + first)
        (outLoop mixbuf outbits outlen first i outpos out).1
        (outLoop mixbuf outbits outlen first i outpos out).2 := by
  induction first generalizing i outpos out with
  | zero => rw [Nat.zero_add]; rfl
  | succ first ih =>
    rw [Nat.succ_add, outLoop, outLoop, ih]
    rw [show i + 1 + first = i + (first + 1) by omega]

end OutLoop

theorem outLoop_written (mixbuf : ℕ → ℤ) (format : OutFormat) (left i : ℕ) {outpos : ℕ}
    (out : OutBuf) (lt : outpos < bufferSize * 8 / format.wBitsPerSample) :
    (outLoop mixbuf format.wBitsPerSample (bufferSize * 8 / format.wBitsPerSample) left i outpos
      out).2.written =
      out.written ++ (List.range left).flatMap fun k =>
        outBytes format.wBitsPerSample (mixbuf (i + k)) := by
  induction left generalizing i outpos out with
  | zero => exact (List.append_nil _).symm
  | succ left ih =>
    have inside : outpos * (format.wBitsPerSample / 8) +
        (outBytes format.wBitsPerSample (mixbuf i)).length ≤ bufferSize := by
      rw [length_outBytes]
      unfold bufferSize at lt ⊢
      rcases format.element with h | h <;> rw [h.1] <;> rw [h.2.2] at lt <;> omega
    have next : (if outpos + 1 ≥ bufferSize * 8 / format.wBitsPerSample then 0 else outpos + 1) <
        bufferSize * 8 / format.wBitsPerSample := by
      split <;> omega
    rw [outLoop, ih (i + 1) _ next, put_written out inside, List.append_assoc,
      List.range_succ_eq_map, List.flatMap_cons, List.flatMap_map]
    congr 3
    funext k
    rw [show i + 1 + k = i + Nat.succ k by omega]

/-! ## The mixer -/

theorem cleared {s : State} {tomix ulRequiredSize : ℕ} (room : s.ulMixerBufferSize ≤ s.mix.room) :
    ∀ j < ulRequiredSize,
      ((s.allocMix tomix ulRequiredSize true).clearMix ulRequiredSize).mix.mixbuf j = 0 := by
  intro j lt
  have enough : ulRequiredSize ≤ (s.allocMix tomix ulRequiredSize true).mix.room := by
    unfold State.allocMix
    by_cases grows : s.ulMixerBufferSize < ulRequiredSize
    · rw [if_pos grows]
      exact le_rfl
    · rw [if_neg grows]
      omega
  rw [State.clearMix, if_pos enough]
  exact if_pos lt

/-- The accumulator of an element. -/
def State.acc (s : State) (ch k : ℕ) : ℤ := long (s.sum ch k)

variable {s : State} {frames : ℕ}

theorem tomix_frameBytes (stereo : s.primary.format.nChannels = 2)
    (small : frames * (s.primary.format.wBitsPerSample * 2) < 0x100000000) :
    s.tomix (s.frameBytes frames) = frames := by
  unfold State.tomix State.frameBytes u32
  rw [stereo]
  rcases s.primary.format.bits with bits | bits <;> rw [bits] at small ⊢ <;> omega

/-- The element of the primary buffer that is stored next. -/
def OutBuf.outpos (out : OutBuf) : ℕ := out.playpos * 8 / out.format.wBitsPerSample

/-- The loop that stores so many frames. -/
def State.stored (s : State) (frames : ℕ) (value : ℕ → ℕ → ℤ) : ℕ × OutBuf :=
  outLoop (fun i => value (i % 2) (i / 2)) s.primary.format.wBitsPerSample
    (bufferSize * 8 / s.primary.format.wBitsPerSample) (frames * 2) 0 s.primary.outpos
    { s.primary with written := [] }

theorem outpos_lt (ring : s.primary.playpos < bufferSize) :
    s.primary.outpos < bufferSize * 8 / s.primary.format.wBitsPerSample := by
  unfold OutBuf.outpos
  unfold bufferSize at ring ⊢
  rcases s.primary.format.bits with bits | bits <;> rw [bits] <;> omega

/-- What `MixFunc` makes of a state. -/
structure Mixed (s : State) (frames : ℕ) (t : State) : Prop where
  buffers : t.buffers = movedAll s.outrate frames s.buffers
  room : t.ulMixerBufferSize ≤ t.mix.room
  format : t.primary.format = s.primary.format
  samples : t.primary.lpBuffer = (s.stored frames s.acc).2.lpBuffer
  playpos : t.primary.playpos =
    (s.stored frames s.acc).1 * s.primary.format.wBitsPerSample / 8
  written : t.primary.written = (List.range (frames * 2)).flatMap fun i =>
    clamped s.primary.format.wBitsPerSample (s.acc (i % 2) (i / 2))

theorem mixFunc_mixed (ready : s.Ready)
    (small : frames * (s.primary.format.wBitsPerSample * 2) < 0x100000000) :
    Mixed s frames (s.mixFunc (s.frameBytes frames) true) := by
  have tomix := tomix_frameBytes ready.stereo small
  obtain ⟨room, -, size, buffers, primary⟩ := @prepared s frames (frames * 2) true ready.room
    (by omega) fun _ => rfl
  have zero := @cleared s frames (frames * 2) ready.room
  have steps := ready.steps
  obtain ⟨t, t_eq⟩ : ∃ t, t = (s.allocMix frames (frames * 2) true).clearMix (frames * 2) :=
    ⟨_, rfl⟩
  rw [← t_eq] at room size buffers primary zero
  have enough : 2 * frames ≤ t.mix.room := by
    have := ready.room
    rw [room]
    split_ifs <;> omega
  obtain ⟨moved, room', adds⟩ := mixBuffers_spec s.outrate steps enough
  have elements : ∀ k < frames * 2, (mixBuffers frames s.outrate s.buffers t.mix).2.mixbuf (0 + k) =
      (fun i => s.acc (i % 2) (i / 2)) (0 + k) := by
    intro k lt
    rw [Nat.zero_add, adds k (by omega) (by rw [zero k lt]; rfl), zero k lt, Int.zero_add]
    rfl
  have start : u32 (s.primary.playpos * 8) / s.primary.format.wBitsPerSample =
      s.primary.outpos := by
    have ring := ready.ring
    unfold bufferSize at ring
    unfold u32 OutBuf.outpos
    rw [Nat.mod_eq_of_lt (by omega)]
  have inside := outpos_lt ready.ring
  have same := @outLoop_same (mixBuffers frames s.outrate s.buffers t.mix).2.mixbuf
    s.primary.format.wBitsPerSample (bufferSize * 8 / s.primary.format.wBitsPerSample)
    (fun i => s.acc (i % 2) (i / 2)) (frames * 2) 0 0 s.primary.outpos
    { s.primary with written := [] } { s.primary with written := [] } elements rfl
  have bytes := outLoop_written (mixBuffers frames s.outrate s.buffers t.mix).2.mixbuf
    s.primary.format (frames * 2) 0 { s.primary with written := [] } inside
  have kept := (outLoop_inside (mixBuffers frames s.outrate s.buffers t.mix).2.mixbuf
    s.primary.format (frames * 2) 0 { s.primary with written := [] } inside).2.2
  have result : s.mixFunc (s.frameBytes frames) true =
      { t with
        mix := (mixBuffers frames s.outrate s.buffers t.mix).2
        buffers := (mixBuffers frames s.outrate s.buffers t.mix).1
        primary := { (outLoop (mixBuffers frames s.outrate s.buffers t.mix).2.mixbuf
          s.primary.format.wBitsPerSample (bufferSize * 8 / s.primary.format.wBitsPerSample)
          (frames * 2) 0 s.primary.outpos { s.primary with written := [] }).2 with
          playpos := (outLoop (mixBuffers frames s.outrate s.buffers t.mix).2.mixbuf
            s.primary.format.wBitsPerSample (bufferSize * 8 / s.primary.format.wBitsPerSample)
            (frames * 2) 0 s.primary.outpos { s.primary with written := [] }).1 *
              s.primary.format.wBitsPerSample / 8 } } := by
    unfold State.mixFunc
    dsimp only
    rw [tomix, ready.stereo, ← t_eq, buffers, primary, start]
    rfl
  rw [result]
  refine ⟨moved, ?_, kept, same.2, ?_, ?_⟩
  · rw [room']
    exact size
  · rw [same.1]
    rfl
  · refine bytes.trans ?_
    rw [List.nil_append]
    apply List.flatMap_congr
    intro k mem
    rw [elements k (List.mem_range.mp mem), outBytes_eq, Nat.zero_add]

theorem Mixed.ready {t : State} (mixed : Mixed s frames t) (ready : s.Ready) : t.Ready where
  stereo := by rw [mixed.format, ready.stereo]
  room := mixed.room
  ring := by
    rw [mixed.playpos]
    exact s.primary.format.byte_lt (outLoop_inside _ s.primary.format _ _ _
      (outpos_lt ready.ring)).1
  steps := by
    rw [State.outrate, mixed.format, mixed.buffers]
    exact movedAll_steps _ ready.steps frames

theorem Mixed.acc {t : State} (mixed : Mixed s frames t) (ready : s.Ready) (ch k : ℕ) :
    t.acc ch k = s.acc ch (frames + k) := by
  rw [State.acc, State.sum, State.outrate, mixed.format, mixed.buffers]
  exact congrArg long (movedAll_adds s.outrate ready.steps frames ch k)

theorem Mixed.outpos {t : State} (mixed : Mixed s frames t) (ready : s.Ready) :
    t.primary.outpos = (s.stored frames s.acc).1 := by
  have lt : (s.stored frames s.acc).1 < bufferSize * 8 / s.primary.format.wBitsPerSample :=
    (outLoop_inside _ s.primary.format _ _ _ (outpos_lt ready.ring)).1
  rw [OutBuf.outpos, mixed.playpos, mixed.format]
  rcases s.primary.format.bits with bits | bits <;> rw [bits] <;> omega

theorem stored_add {t : State} (mixed : Mixed s frames t) (ready : s.Ready) (later : ℕ) :
    (t.stored later t.acc).1 = (s.stored (frames + later) s.acc).1 ∧
      (t.stored later t.acc).2.lpBuffer = (s.stored (frames + later) s.acc).2.lpBuffer := by
  have split : s.stored (frames + later) s.acc =
      outLoop (fun i => s.acc (i % 2) (i / 2)) s.primary.format.wBitsPerSample
        (bufferSize * 8 / s.primary.format.wBitsPerSample) (later * 2) (0 + frames * 2)
        (s.stored frames s.acc).1 (s.stored frames s.acc).2 := by
    rw [State.stored, Nat.add_mul, outLoop_add]
    rfl
  rw [split, State.stored, mixed.outpos ready, mixed.format]
  apply outLoop_same
  · intro k _
    rw [mixed.acc ready, show (0 + frames * 2 + k) % 2 = (0 + k) % 2 by omega,
      show (0 + frames * 2 + k) / 2 = frames + (0 + k) / 2 by omega]
  · exact mixed.samples

theorem chunks_acc (ready : s.Ready) (a b : ℕ)
    (small : (a + b) * (s.primary.format.wBitsPerSample * 2) < 0x100000000) :
    ChunksGive s a b s.acc := by
  have parts := Nat.add_mul a b (s.primary.format.wBitsPerSample * 2)
  have first := @mixFunc_mixed s a ready (by omega)
  have whole := mixFunc_mixed ready small
  have again := first.ready ready
  obtain ⟨t, t_eq⟩ : ∃ t, t = s.mixFunc (s.frameBytes a) true := ⟨_, rfl⟩
  rw [← t_eq] at first again
  have bytes : s.frameBytes b = t.frameBytes b := by
    rw [State.frameBytes, State.frameBytes, first.format]
  have second := @mixFunc_mixed t b again (by rw [first.format]; omega)
  have stored := stored_add first ready b
  refine ⟨?_, whole.written⟩
  rw [← t_eq, bytes]
  refine ⟨?_, ?_, ?_⟩
  · rw [second.samples, whole.samples, stored.2]
  · rw [second.playpos, whole.playpos, stored.1, first.format]
  · rw [second.buffers, whole.buffers, State.outrate, first.format, first.buffers]
    exact movedAll_add s.outrate ready.steps a b

/-! ## The accumulator -/

theorem sample_range (b : SndBuf) (ch p : ℕ) : -32768 ≤ b.sample ch p ∧ b.sample ch p ≤ 32768 := by
  unfold SndBuf.sample
  dsimp only
  split_ifs
  · rw [Int.bmod_def]
    omega
  · have := (b.lpBuffer (p / 1024 * b.shape.nChannels + ch % b.shape.nChannels)).toNat_lt
    omega

theorem scaled_range {v k : ℤ} (v_low : 0 ≤ v) (v_high : v ≤ 255) (k_low : 0 ≤ k)
    (k_high : k ≤ 256) : 0 ≤ (v * k).tdiv 256 ∧ (v * k).tdiv 256 ≤ 255 := by
  have low : 0 ≤ v * k := Int.mul_nonneg v_low k_low
  have high : v * k ≤ 255 * 256 := Int.mul_le_mul v_high k_high k_low (by decide)
  rw [Int.tdiv_eq_ediv_of_nonneg low]
  omega

theorem vol_range {b : SndBuf} (set : b.Set) (ch : ℕ) : 0 ≤ b.vol ch ∧ b.vol ch ≤ 255 := by
  have volume := set.1
  have pan := set.2
  unfold SndBuf.vol
  split_ifs
  · exact volume
  · exact scaled_range volume.1 volume.2 (by omega) (by omega)
  · exact volume
  · exact scaled_range volume.1 volume.2 (by omega) (by omega)

theorem adds_range {b : SndBuf} (set : b.Set) (outrate ch k : ℕ) :
    -32640 ≤ b.adds outrate ch k ∧ b.adds outrate ch k ≤ 32640 := by
  have product : ∀ p, -32640 ≤ (b.sample ch p * b.vol ch).tdiv 256 ∧
      (b.sample ch p * b.vol ch).tdiv 256 ≤ 32640 := by
    intro p
    have vol := vol_range set ch
    have sample := sample_range b ch p
    have high : b.sample ch p * b.vol ch ≤ 32768 * 255 := by nlinarith
    have low : -(32768 * 255) ≤ b.sample ch p * b.vol ch := by nlinarith
    generalize b.sample ch p * b.vol ch = v at high low
    rcases le_or_gt 0 v with pos | neg
    · rw [Int.tdiv_eq_ediv_of_nonneg pos]
      omega
    · rw [show v = -(-v) by omega, Int.neg_tdiv, Int.tdiv_eq_ediv_of_nonneg (by omega)]
      omega
  unfold SndBuf.adds
  by_cases playing : b.fPlaying = true
  · rw [if_pos playing]
    cases b.place outrate k with
    | none =>
      show -32640 ≤ (0 : ℤ) ∧ (0 : ℤ) ≤ 32640
      decide
    | some p => exact product p
  · rw [if_neg playing]
    decide

/-- How many buffers play. -/
def State.playing (s : State) : ℕ := s.buffers.countP SndBuf.fPlaying

theorem sum_range (buffers : List SndBuf) (set : ∀ b ∈ buffers, b.Set) (outrate ch k : ℕ) :
    -(32640 * (buffers.countP SndBuf.fPlaying : ℕ) : ℤ) ≤
        (buffers.map fun b => b.adds outrate ch k).sum ∧
      (buffers.map fun b => b.adds outrate ch k).sum ≤
        32640 * (buffers.countP SndBuf.fPlaying : ℕ) := by
  induction buffers with
  | nil => exact ⟨le_rfl, le_rfl⟩
  | cons b rest ih =>
    have later := ih fun c mem => set c (List.mem_cons_of_mem b mem)
    have this := adds_range (set b List.mem_cons_self) outrate ch k
    rw [List.map_cons, List.sum_cons]
    by_cases playing : b.fPlaying = true
    · rw [List.countP_cons_of_pos playing]
      push_cast
      omega
    · rw [List.countP_cons_of_neg playing, adds_stopped outrate (by simpa using playing)]
      omega

theorem acc_eq_sum (set : ∀ b ∈ s.buffers, b.Set) (few : s.playing ≤ 65535) (ch k : ℕ) :
    s.acc ch k = s.sum ch k := by
  have range := sum_range s.buffers set s.outrate ch k
  have count : (s.buffers.countP SndBuf.fPlaying) ≤ 65535 := few
  rw [State.acc, long, Int.bmod_def]
  unfold State.sum
  omega

/-- Mixing does not depend on how the frames are cut into calls. An element of the output is what
the accumulator holds, which is the sum of the buffers while they are not very many. -/
theorem mixFunc_chunks (s : State) (ready : s.Ready) (a b : ℕ)
    (small : (a + b) * (s.primary.format.wBitsPerSample * 2) < 0x100000000) :
    ChunksGive s a b s.acc ∧
      ((∀ c ∈ s.buffers, c.Set) → s.playing ≤ 65535 → ChunksGive s a b s.sum) := by
  have given := chunks_acc ready a b small
  refine ⟨given, fun set few => ?_⟩
  have equal : s.acc = s.sum := by
    funext ch k
    exact acc_eq_sum set few ch k
  rw [← equal]
  exact given

/-- A loop of 16 bytes that plays. -/
def loud : SndBuf :=
  (SndBuf.create { stereoSource with
    lpBuffer := fun a => if a % 2 = 0 then 255 else 127 }).play 1

def crowd (n : ℕ) : State :=
  { init [] stereoFormat fun _ => 0 with buffers := List.replicate n loud }

theorem loud_steps : loud.Steps stereoFormat.nSamplesPerSec where
  playpos_lt := by decide
  frac := by decide
  short := by decide
  len_lt := by decide
  past_lt := by decide

theorem crowd_ready (n : ℕ) : (crowd n).Ready where
  stereo := rfl
  room := le_rfl
  ring := show 0 < 32768 by decide
  steps := by
    intro b mem _
    rw [List.eq_of_mem_replicate mem]
    exact loud_steps

theorem loud_set : loud.Set := by
  unfold SndBuf.Set
  decide

theorem mixFunc_chunks_crowd : ChunksGive (crowd 2) 3 5 (crowd 2).sum :=
  (mixFunc_chunks (crowd 2) (crowd_ready 2) 3 5 (by decide)).2
    (fun c mem => by rw [List.eq_of_mem_replicate mem]; exact loud_set) (by decide)

theorem crowd_sum (n ch : ℕ) (h : ch = 0 ∨ ch = 1) : (crowd n).sum ch 0 = n * 32639 := by
  have one : loud.adds stereoFormat.nSamplesPerSec ch 0 = 32639 := by
    rcases h with rfl | rfl <;> decide +kernel
  show ((List.replicate n loud).map fun b => b.adds stereoFormat.nSamplesPerSec ch 0).sum = _
  rw [List.map_replicate, one, List.sum_replicate, nsmul_eq_mul]

/-- The sum of very many loud buffers goes around the accumulator. -/
theorem crowd_not_sum :
    ¬ ∀ (s : State) (a b : ℕ), s.Ready → (∀ c ∈ s.buffers, c.Set) →
      (a + b) * (s.primary.format.wBitsPerSample * 2) < 0x100000000 →
      ChunksGive s a b s.sum := by
  intro all
  have set : ∀ c ∈ (crowd 65796).buffers, c.Set := by
    intro c mem
    rw [List.eq_of_mem_replicate mem]
    exact loud_set
  have claimed := (all (crowd 65796) 1 0 (crowd_ready _) set (by decide)).output
  have given := (chunks_acc (crowd_ready 65796) 1 0 (by decide)).output
  have both := given.symm.trans claimed
  have first : clamped 16 ((crowd 65796).acc 0 0) = clamped 16 ((crowd 65796).sum 0 0) := by
    have heads := congrArg (List.take 2) both
    exact heads
  rw [State.acc, crowd_sum _ _ (.inl rfl)] at first
  revert first
  decide +kernel

end Odin32.DsMixer
