import Odin32.DsMixerRun

/-! # The DART buffers of DirectSound

Two cursors go around the 32 KB ring of the primary buffer: `playpos`, which `MixFunc`
advances by what it mixes, and `lLastBuff`, which the DART callback advances by a buffer.
What is copied is what was mixed as long as they stand at the same byte, which they do when
the DART buffers divide the ring, whole frames fill a DART buffer, and playing starts, and
formats change, where the cursors agree. -/

set_option autoImplicit false

namespace Odin32.Dart

open DsMixer ByteMemory Word

/-! ## The device -/

structure State where
  mixer : DsMixer.State
  ulNumDartBuffs : ℕ
  lLastBuff : ℕ
  fIsPlaying : Bool

/-- The number of DART buffers for a format, where it is not a division by zero. -/
def numDartBuffs (format : OutFormat) : Option ℕ :=
  let rate := long ((format.wBitsPerSample / 8 : ℕ) * format.nChannels * 2048 *
    format.nSamplesPerSec)
  if rate = 0 then none else some (ulong (Int.tdiv (bufferSize * 44100) rate))

/-- The bytes from `a` on. -/
def slice (m : Mem) (a : ℕ) : ℕ → List UInt8
  | 0 => []
  | n + 1 => m a :: slice m (a + 1) n

/-- `MixCallback`, and the `memcpy` of the part of the ring for the DART buffer `lLastBuff`. -/
def mixAndCopy (s : State) (ok : Bool) : Option (State × Option (List UInt8)) :=
  if s.ulNumDartBuffs = 0 then none
  else
    let size := bufferSize / s.ulNumDartBuffs
    let mixer := s.mixer.mixFunc size ok
    let primary := mixer.primary
    let beyond := decide (bufferSize < s.lLastBuff * size + size)
    some ({ s with mixer := { mixer with
        primary := { primary with fault := primary.fault || beyond } } },
      some (slice primary.lpBuffer (s.lLastBuff * size) size))

/-- The next copy, if DART is to play on. -/
def playOn (ok : Bool) (s : State) : Option (State × Option (List UInt8)) :=
  if s.fIsPlaying then mixAndCopy s ok else some (s, none)

/-- The device with another number of buffers, opened in another format. -/
def State.withBuffers (s : State) (format : OutFormat) (ulNumDartBuffs : ℕ) : Option State :=
  if ulNumDartBuffs = 0 then none
  else
    some { s with
      mixer := { s.mixer with primary := { s.mixer.primary with format := format } }
      ulNumDartBuffs := ulNumDartBuffs
      lLastBuff := 0 }

def State.reopen (s : State) (format : OutFormat) : Option State :=
  (numDartBuffs format).bind (s.withBuffers format)

/-- A call. `ready` is whether DART gave its write routine and buffers, `complete` whether a
write completed or the stream ran out of buffers, `ok` whether `mixbuf` can grow. -/
inductive Op where
  | setFormat (format : OutFormat) (ok : Bool)
  | play (playing ready ok : Bool)
  | stop
  | update (complete ok : Bool)

/-- One call, with what it copies to a DART buffer; `none` where it divides by zero. -/
def step (s : State) : Op → Option (State × Option (List UInt8))
  | .setFormat format ok => (s.reopen format).bind (playOn ok)
  | .play playing ready ok =>
    if playing then some (s, none)
    else if ready then mixAndCopy { s with fIsPlaying := true } ok
    else some (s, none)
  | .stop => some ({ s with fIsPlaying := false }, none)
  | .update complete ok =>
    if complete then
      let lLastBuff := s.lLastBuff + 1
      playOn ok { s with lLastBuff := if lLastBuff ≥ s.ulNumDartBuffs then 0 else lLastBuff }
    else some (s, none)

theorem sixteen_bits : 16 = 8 ∨ 16 = 16 := Or.inr rfl

theorem two_channels : 0 < 2 := Nat.succ_pos 1

theorem default_rate : 0 < 22500 := Nat.succ_pos 22499

/-- The default format of the primary buffer. -/
def defaultFormat : OutFormat := ⟨16, 2, 22500, sixteen_bits, two_channels, default_rate⟩

def init (sources : List Source) (lpBuffer : Mem) : State where
  mixer := DsMixer.init sources defaultFormat lpBuffer
  ulNumDartBuffs := bufferSize * 44100 / (2 * 2 * 2048 * 22050)
  lLastBuff := 0
  fIsPlaying := false

/-! ## The law -/

/-- What a call owes: no division by zero, no access beyond the ring, and a copy of just what
was mixed. -/
structure Law (s' : State) (copied : Option (List UInt8)) : Prop where
  buffers : 1 ≤ s'.ulNumDartBuffs
  stored : s'.mixer.primary.fault = false
  same : ∀ bytes ∈ copied, bytes = s'.mixer.primary.written

/-- Every call of a run pays what it owes. -/
def Lawful : State → List Op → Prop
  | _, [] => True
  | s, op :: ops => ∃ s' copied, step s op = some (s', copied) ∧ Law s' copied ∧ Lawful s' ops

/-! ## When a call pays -/

def OutFormat.frameBytes (format : OutFormat) : ℕ := format.wBitsPerSample / 8 * format.nChannels

/-- The DART buffers divide the ring, and whole frames fill one. -/
structure FormatFits (format : OutFormat) (ulNumDartBuffs : ℕ) : Prop where
  divides : ulNumDartBuffs ∣ bufferSize
  frames : OutFormat.frameBytes format ∣ bufferSize / ulNumDartBuffs

/-- A format is one for which that is so. -/
def Suits (format : OutFormat) : Prop :=
  ∃ ulNumDartBuffs, numDartBuffs format = some ulNumDartBuffs ∧ FormatFits format ulNumDartBuffs

def OpFits (s : State) : Op → Prop
  | .setFormat format _ =>
    Suits format ∧ (s.fIsPlaying = true → s.mixer.primary.playpos = 0)
  | .play playing ready _ => playing = false → ready = true →
    s.mixer.primary.playpos = s.lLastBuff * (bufferSize / s.ulNumDartBuffs)
  | .stop => True
  | .update _ _ => True

def RunFits : State → List Op → Prop
  | _, [] => True
  | s, op :: ops => OpFits s op ∧ ∀ next ∈ step s op, RunFits next.1 ops

/-! ## What the mixer stores -/

theorem slice_append (m : Mem) (a k n : ℕ) : slice m a (k + n) = slice m a k ++ slice m (a + k) n := by
  induction k generalizing a with
  | zero => rw [Nat.zero_add]; rfl
  | succ k ih =>
    rw [Nat.succ_add, slice, ih, slice, List.cons_append, Nat.add_right_comm, Nat.add_assoc]

theorem slice_congr {m m' : Mem} {a n : ℕ} (same : ∀ b, a ≤ b → b < a + n → m b = m' b) :
    slice m a n = slice m' a n := by
  induction n generalizing a with
  | zero => rfl
  | succ n ih =>
    rw [slice, slice, same a (le_refl a) (by omega),
      ih fun b low high => same b (by omega) (by omega)]

theorem put_stores (out : OutBuf) (a : ℕ) {bytes : List UInt8}
    (inside : a + bytes.length ≤ bufferSize) :
    slice (out.put a bytes).lpBuffer a bytes.length = bytes ∧
      (out.put a bytes).written = out.written ++ bytes ∧
      ∀ b, b < a ∨ a + bytes.length ≤ b → (out.put a bytes).lpBuffer b = out.lpBuffer b := by
  induction bytes generalizing out a with
  | nil => exact ⟨rfl, (List.append_nil _).symm, fun _ _ => rfl⟩
  | cons byte bytes ih =>
    rw [List.length_cons] at inside
    unfold OutBuf.put
    rw [if_pos (by omega)]
    obtain ⟨stored, written, kept⟩ := ih { out with
      lpBuffer := fun k => if k = a then byte else out.lpBuffer k
      written := out.written ++ [byte] } (a + 1) (by omega)
    refine ⟨?_, ?_, ?_⟩
    · rw [List.length_cons, slice, stored, kept a (by omega)]
      dsimp only
      rw [if_pos rfl]
    · rw [written, List.append_assoc]
      rfl
    · intro b outside
      rw [List.length_cons] at outside
      rw [kept b (by omega)]
      exact if_neg (by omega)

theorem outLoop_stores (mixbuf : ℕ → ℤ) (format : OutFormat) (left i outpos : ℕ) (out : OutBuf)
    (lt : outpos < bufferSize * 8 / format.wBitsPerSample)
    (room : outpos + left ≤ bufferSize * 8 / format.wBitsPerSample) :
    let outlen := bufferSize * 8 / format.wBitsPerSample
    let size := format.wBitsPerSample / 8
    let r := outLoop mixbuf format.wBitsPerSample outlen left i outpos out
    r.1 = (if outpos + left = outlen then 0 else outpos + left) ∧
      r.2.written = out.written ++ slice r.2.lpBuffer (outpos * size) (left * size) ∧
      ∀ b < outpos * size, r.2.lpBuffer b = out.lpBuffer b := by
  intro outlen size
  induction left generalizing i outpos out with
  | zero =>
    refine ⟨?_, ?_, fun _ _ => rfl⟩
    · exact (if_neg (by omega)).symm
    · rw [Nat.zero_mul]
      exact (List.append_nil _).symm
  | succ left ih =>
    have length := length_outBytes format (mixbuf i)
    have whole : outlen * size = bufferSize := by
      rcases format.element with h | h <;> simp only [outlen, size, h.1, h.2.1, bufferSize]
    have inside : outpos * size + (outBytes format.wBitsPerSample (mixbuf i)).length ≤
        bufferSize := by
      rw [length, ← whole, ← Nat.succ_mul]
      exact Nat.mul_le_mul_right size lt
    obtain ⟨stored, written, kept⟩ := put_stores out _ inside
    rw [length] at stored kept
    rw [outLoop]
    dsimp only
    by_cases ends : outpos + 1 ≥ outlen
    · have last : left = 0 := by omega
      subst last
      rw [if_pos ends, outLoop]
      refine ⟨(if_pos (by omega)).symm, ?_, fun b below => kept b (.inl below)⟩
      rw [written, Nat.zero_add, Nat.one_mul, stored]
    · rw [if_neg ends]
      obtain ⟨cursor, later, untouched⟩ := ih (i + 1) (outpos + 1) (out.put (outpos * size)
        (outBytes format.wBitsPerSample (mixbuf i))) (by omega) (by omega)
      refine ⟨?_, ?_, ?_⟩
      · rw [cursor, Nat.add_right_comm, Nat.add_assoc]
      · have first : slice (outLoop mixbuf format.wBitsPerSample outlen left (i + 1) (outpos + 1)
            (out.put (outpos * size) (outBytes format.wBitsPerSample (mixbuf i)))).2.lpBuffer
            (outpos * size) size = outBytes format.wBitsPerSample (mixbuf i) := by
          refine Eq.trans ?_ stored
          apply slice_congr
          intro b _ high
          exact untouched b (by rw [Nat.succ_mul]; omega)
        rw [later, written, List.append_assoc, Nat.succ_mul left, Nat.add_comm (left * size),
          slice_append, first, Nat.succ_mul outpos]
      · intro b below
        rw [untouched b (by rw [Nat.succ_mul]; omega), kept b (.inl below)]

theorem tomix_frames {s : DsMixer.State} {size : ℕ} (small : size ≤ bufferSize)
    (frames : OutFormat.frameBytes s.primary.format ∣ size) :
    s.tomix size * s.primary.format.nChannels * (s.primary.format.wBitsPerSample / 8) = size := by
  obtain ⟨q, rfl⟩ := frames
  have channels := s.primary.format.channels
  have words : u32 (OutFormat.frameBytes s.primary.format * q * 8) =
      OutFormat.frameBytes s.primary.format * q * 8 := by
    unfold bufferSize at small
    exact Nat.mod_eq_of_lt (by omega)
  have count : s.tomix (OutFormat.frameBytes s.primary.format * q) = q := by
    unfold DsMixer.State.tomix
    rw [words]
    unfold OutFormat.frameBytes
    rcases s.primary.format.element with h | h
    · rw [h.1, h.2.2, Nat.one_mul, Nat.mul_div_cancel _ (by decide),
        Nat.mul_div_cancel_left _ channels]
    · rw [h.1, h.2.2, show 2 * s.primary.format.nChannels * q * 8 =
        s.primary.format.nChannels * q * 16 by ring, Nat.mul_div_cancel _ (by decide),
        Nat.mul_div_cancel_left _ channels]
  rw [count]
  unfold OutFormat.frameBytes
  ring

theorem clearMix_primary (s : DsMixer.State) (ulRequiredSize : ℕ) :
    (s.clearMix ulRequiredSize).primary = s.primary := by
  unfold State.clearMix
  split <;> rfl

theorem allocMix_primary (s : DsMixer.State) (tomix ulRequiredSize : ℕ) (ok : Bool) :
    (s.allocMix tomix ulRequiredSize ok).primary = s.primary := by
  unfold State.allocMix
  split <;> rfl

theorem mixFunc_stores {s : DsMixer.State} {size : ℕ} (ok : Bool)
    (frames : OutFormat.frameBytes s.primary.format ∣ size)
    (element : s.primary.format.wBitsPerSample / 8 ∣ s.primary.playpos)
    (lt : s.primary.playpos < bufferSize) (room : s.primary.playpos + size ≤ bufferSize) :
    let t := s.mixFunc size ok
    t.primary.written = slice t.primary.lpBuffer s.primary.playpos size ∧
      t.primary.playpos = (if s.primary.playpos + size = bufferSize then 0
        else s.primary.playpos + size) ∧
      t.primary.fault = s.primary.fault ∧ t.primary.format = s.primary.format := by
  have bytes := tomix_frames (show size ≤ bufferSize by omega) frames
  -- the cursor and the end in elements
  have start : u32 (s.primary.playpos * 8) / s.primary.format.wBitsPerSample *
      (s.primary.format.wBitsPerSample / 8) = s.primary.playpos := by
    unfold bufferSize at lt
    unfold u32
    rcases s.primary.format.element with h | h <;> rw [h.1] at element <;> rw [h.1, h.2.2] <;>
      omega
  have below : u32 (s.primary.playpos * 8) / s.primary.format.wBitsPerSample <
      bufferSize * 8 / s.primary.format.wBitsPerSample := by
    unfold bufferSize at lt
    rcases s.primary.format.element with h | h <;> rw [h.1] at start <;> rw [h.2.1] <;> omega
  have space : u32 (s.primary.playpos * 8) / s.primary.format.wBitsPerSample +
      s.tomix size * s.primary.format.nChannels ≤
      bufferSize * 8 / s.primary.format.wBitsPerSample := by
    unfold bufferSize at room
    rcases s.primary.format.element with h | h <;> rw [h.1] at start bytes <;> rw [h.2.1] <;> omega
  unfold State.mixFunc
  dsimp only
  rw [clearMix_primary, allocMix_primary]
  generalize (mixBuffers _ _ _ _).2.mixbuf = mixbuf
  obtain ⟨-, fault, format⟩ := outLoop_inside mixbuf s.primary.format
    (s.tomix size * s.primary.format.nChannels) 0 { s.primary with written := [] } below
  obtain ⟨cursor, written, -⟩ := outLoop_stores mixbuf s.primary.format
    (s.tomix size * s.primary.format.nChannels) 0 _ { s.primary with written := [] } below space
  refine ⟨?_, ?_, fault, format⟩
  · rw [written, start, bytes]
    exact List.nil_append _
  · rw [cursor]
    rcases s.primary.format.element with h | h <;> rw [h.1, h.2.2] at start <;>
      rw [h.1] at bytes <;> rw [h.2.1, h.2.2] <;> unfold bufferSize <;> split <;> split <;> omega

/-! ## Steps -/

/-- The cursors: `playpos` stands behind the DART buffer that was filled last. -/
structure Inv (s : State) : Prop where
  buffers : 1 ≤ s.ulNumDartBuffs
  fits : FormatFits s.mixer.primary.format s.ulNumDartBuffs
  last : s.lLastBuff < s.ulNumDartBuffs
  stored : s.mixer.primary.fault = false
  ring : s.mixer.primary.playpos < bufferSize
  agree : s.fIsPlaying = true → s.mixer.primary.playpos =
    (s.lLastBuff + 1) % s.ulNumDartBuffs * (bufferSize / s.ulNumDartBuffs)

section Copies

variable {s : State}

theorem FormatFits.size_pos {format : OutFormat} {n : ℕ} (fits : FormatFits format n) :
    0 < bufferSize / n :=
  Nat.div_pos (Nat.le_of_dvd (by decide) fits.divides)
    (Nat.pos_of_dvd_of_pos fits.divides (by decide))

theorem next_cursor {n last : ℕ} (divides : n ∣ bufferSize) (lt : last < n)
    (pos : 0 < bufferSize / n) :
    (if last * (bufferSize / n) + bufferSize / n = bufferSize then 0
      else last * (bufferSize / n) + bufferSize / n) = (last + 1) % n * (bufferSize / n) := by
  have whole : n * (bufferSize / n) = bufferSize := Nat.mul_div_cancel' divides
  rw [← Nat.succ_mul]
  by_cases ends : last + 1 = n
  · rw [if_pos (by rw [Nat.succ_eq_add_one, ends, whole]), ends, Nat.mod_self, Nat.zero_mul]
  · have below : last + 1 < n := by omega
    have short : (last + 1) * (bufferSize / n) < n * (bufferSize / n) :=
      Nat.mul_lt_mul_of_pos_right below pos
    rw [if_neg (by rw [Nat.succ_eq_add_one]; omega), Nat.mod_eq_of_lt below]

theorem mixAndCopy_lawful {ok : Bool} (buffers : 1 ≤ s.ulNumDartBuffs)
    (fits : FormatFits s.mixer.primary.format s.ulNumDartBuffs) (last : s.lLastBuff < s.ulNumDartBuffs)
    (stored : s.mixer.primary.fault = false)
    (here : s.mixer.primary.playpos = s.lLastBuff * (bufferSize / s.ulNumDartBuffs)) :
    ∃ s' copied, mixAndCopy s ok = some (s', copied) ∧ Law s' copied ∧ Inv s' := by
  have pos := fits.size_pos
  have whole : s.ulNumDartBuffs * (bufferSize / s.ulNumDartBuffs) = bufferSize :=
    Nat.mul_div_cancel' fits.divides
  have room : s.lLastBuff * (bufferSize / s.ulNumDartBuffs) + bufferSize / s.ulNumDartBuffs ≤
      bufferSize := by
    rw [← Nat.succ_mul, ← whole, Nat.mul_div_cancel_left _ buffers]
    exact Nat.mul_le_mul_right _ last
  have frames : bufferSize / s.ulNumDartBuffs ∣ s.mixer.primary.playpos := by
    rw [here]
    exact Nat.dvd_mul_left _ _
  have element : s.mixer.primary.format.wBitsPerSample / 8 ∣ s.mixer.primary.playpos :=
    ((Nat.dvd_mul_right _ _).trans fits.frames).trans frames
  obtain ⟨written, cursor, fault, format⟩ := mixFunc_stores ok fits.frames element
    (by omega) (by omega)
  have inside : decide (bufferSize < s.lLastBuff * (bufferSize / s.ulNumDartBuffs) +
      bufferSize / s.ulNumDartBuffs) = false := decide_eq_false (not_lt.mpr room)
  rw [here, next_cursor fits.divides last pos] at cursor
  rw [here] at written
  have sound : ((s.mixer.mixFunc (bufferSize / s.ulNumDartBuffs) ok).primary.fault ||
      decide (bufferSize < s.lLastBuff * (bufferSize / s.ulNumDartBuffs) +
        bufferSize / s.ulNumDartBuffs)) = false := by
    rw [inside, fault, stored]
    rfl
  refine ⟨_, _, if_neg (by omega), ⟨buffers, sound, ?_⟩, ⟨buffers, ?_, last, sound, ?_, ?_⟩⟩
  · intro bytes copied
    cases copied
    exact written.symm
  · show FormatFits (s.mixer.mixFunc _ ok).primary.format _
    rw [format]
    exact fits
  · show (s.mixer.mixFunc _ ok).primary.playpos < bufferSize
    rw [cursor, ← whole, Nat.mul_div_cancel_left _ buffers]
    exact Nat.mul_lt_mul_of_pos_right (Nat.mod_lt _ buffers) pos
  · intro _
    exact cursor

theorem Inv.quiet (inv : Inv s) : Law s none :=
  ⟨inv.buffers, inv.stored, fun _ copied => by cases copied⟩

theorem reopen_eq {format : OutFormat} {n : ℕ} (found : numDartBuffs format = some n)
    (pos : 0 < n) :
    s.reopen format = some { s with
      mixer := { s.mixer with primary := { s.mixer.primary with format := format } }
      ulNumDartBuffs := n
      lLastBuff := 0 } := by
  unfold State.reopen
  rw [found, Option.bind_some]
  exact if_neg (Nat.ne_of_gt pos)

theorem playOn_lawful {ok : Bool} (buffers : 1 ≤ s.ulNumDartBuffs)
    (fits : FormatFits s.mixer.primary.format s.ulNumDartBuffs) (last : s.lLastBuff < s.ulNumDartBuffs)
    (stored : s.mixer.primary.fault = false) (ring : s.mixer.primary.playpos < bufferSize)
    (here : s.fIsPlaying = true →
      s.mixer.primary.playpos = s.lLastBuff * (bufferSize / s.ulNumDartBuffs)) :
    ∃ s' copied, playOn ok s = some (s', copied) ∧ Law s' copied ∧ Inv s' := by
  unfold playOn
  by_cases plays : s.fIsPlaying = true
  · rw [if_pos plays]
    exact mixAndCopy_lawful buffers fits last stored (here plays)
  · rw [if_neg plays]
    have inv : Inv s := ⟨buffers, fits, last, stored, ring, fun h => absurd h plays⟩
    exact ⟨s, none, rfl, inv.quiet, inv⟩

theorem step_setFormat (s : State) (format : OutFormat) (ok : Bool) :
    step s (.setFormat format ok) = (s.reopen format).bind (playOn ok) := rfl

theorem setFormat_lawful {format : OutFormat} {ok : Bool} {n : ℕ} (inv : Inv s)
    (found : numDartBuffs format = some n) (suits : FormatFits format n)
    (begins : s.fIsPlaying = true → s.mixer.primary.playpos = 0) :
    ∃ s' copied, (s.reopen format).bind (playOn ok) = some (s', copied) ∧ Law s' copied ∧
      Inv s' := by
  have pos : 0 < n := Nat.pos_of_dvd_of_pos suits.divides (by decide)
  rw [reopen_eq found pos, Option.bind_some]
  refine playOn_lawful pos suits pos inv.stored inv.ring ?_
  intro plays
  rw [Nat.zero_mul]
  exact begins plays

theorem update_lawful {ok : Bool} (inv : Inv s) :
    ∃ s' copied, step s (.update true ok) = some (s', copied) ∧ Law s' copied ∧ Inv s' := by
  have last := inv.last
  have wraps : (if s.lLastBuff + 1 ≥ s.ulNumDartBuffs then 0 else s.lLastBuff + 1) =
      (s.lLastBuff + 1) % s.ulNumDartBuffs := by
    by_cases ends : s.lLastBuff + 1 = s.ulNumDartBuffs
    · rw [if_pos ends.ge, ends, Nat.mod_self]
    · rw [if_neg (by omega), Nat.mod_eq_of_lt (by omega)]
  have next : step s (.update true ok) = playOn ok { s with
      lLastBuff := if s.lLastBuff + 1 ≥ s.ulNumDartBuffs then 0 else s.lLastBuff + 1 } := rfl
  rw [next, wraps]
  exact playOn_lawful inv.buffers inv.fits (Nat.mod_lt _ inv.buffers) inv.stored inv.ring inv.agree

theorem play_lawful {playing ready ok : Bool} (inv : Inv s)
    (fits : OpFits s (.play playing ready ok)) :
    ∃ s' copied, step s (.play playing ready ok) = some (s', copied) ∧ Law s' copied ∧ Inv s' := by
  cases playing with
  | true => exact ⟨s, none, rfl, inv.quiet, inv⟩
  | false =>
    cases ready with
    | false => exact ⟨s, none, rfl, inv.quiet, inv⟩
    | true =>
      have next : step s (.play false true ok) = mixAndCopy { s with fIsPlaying := true } ok := rfl
      rw [next]
      exact mixAndCopy_lawful (s := { s with fIsPlaying := true }) inv.buffers inv.fits inv.last
        inv.stored (fits rfl rfl)

theorem step_lawful {op : Op} (inv : Inv s) (fits : OpFits s op) :
    ∃ s' copied, step s op = some (s', copied) ∧ Law s' copied ∧ Inv s' := by
  cases op with
  | setFormat format ok =>
    rw [step_setFormat]
    exact fits.1.elim fun n suits => setFormat_lawful inv suits.1 suits.2 fits.2
  | play playing ready ok => exact play_lawful inv fits
  | stop =>
    have inv' : Inv { s with fIsPlaying := false } :=
      ⟨inv.buffers, inv.fits, inv.last, inv.stored, inv.ring, fun h => by cases h⟩
    exact ⟨_, none, rfl, inv'.quiet, inv'⟩
  | update complete ok =>
    cases complete with
    | false => exact ⟨s, none, rfl, inv.quiet, inv⟩
    | true => exact update_lawful inv

end Copies

/-! ## Runs -/

theorem inv_init (sources : List Source) (lpBuffer : Mem) : Inv (init sources lpBuffer) where
  buffers := show 1 ≤ bufferSize * 44100 / (2 * 2 * 2048 * 22050) by decide
  fits := ⟨show bufferSize * 44100 / (2 * 2 * 2048 * 22050) ∣ bufferSize by decide,
    show 16 / 8 * 2 ∣ bufferSize / (bufferSize * 44100 / (2 * 2 * 2048 * 22050)) by decide⟩
  last := show 0 < bufferSize * 44100 / (2 * 2 * 2048 * 22050) by decide
  stored := rfl
  ring := show 0 < bufferSize by decide
  agree h := by cases h

theorem Inv.lawful {s : State} {ops : List Op} (inv : Inv s) (fits : RunFits s ops) :
    Lawful s ops := by
  induction ops generalizing s with
  | nil => trivial
  | cons op ops ih =>
    obtain ⟨s', copied, eq, law, inv'⟩ := step_lawful inv fits.1
    exact ⟨s', copied, eq, law, ih inv' (fits.2 (s', copied) eq)⟩

theorem rate44 : 0 < 44100 := Nat.succ_pos 44099

/-- 16-bit stereo at 44.1 kHz. -/
def format44 : OutFormat := ⟨16, 2, 44100, sixteen_bits, two_channels, rate44⟩

/-- Four DART buffers of 8192 bytes. -/
def run44 : List Op := [.setFormat format44 true, .play false true true, .update true true,
  .update true true, .stop, .update true true]

theorem length_slice (m : Mem) (a n : ℕ) : (slice m a n).length = n := by
  induction n generalizing a with
  | zero => rfl
  | succ n ih => rw [slice, List.length_cons, ih]

theorem length_outLoop (mixbuf : ℕ → ℤ) (format : OutFormat) (left i outpos : ℕ) (out : OutBuf)
    (lt : outpos < bufferSize * 8 / format.wBitsPerSample) :
    (outLoop mixbuf format.wBitsPerSample (bufferSize * 8 / format.wBitsPerSample) left i outpos
      out).2.written.length = out.written.length + left * (format.wBitsPerSample / 8) := by
  induction left generalizing i outpos out with
  | zero =>
    rw [Nat.zero_mul]
    rfl
  | succ left ih =>
    have length := length_outBytes format (mixbuf i)
    have inside : outpos * (format.wBitsPerSample / 8) +
        (outBytes format.wBitsPerSample (mixbuf i)).length ≤ bufferSize := by
      rw [length]
      unfold bufferSize at lt ⊢
      rcases format.element with h | h <;> rw [h.1] <;> rw [h.2.2] at lt <;> omega
    have next : (if outpos + 1 ≥ bufferSize * 8 / format.wBitsPerSample then 0 else outpos + 1) <
        bufferSize * 8 / format.wBitsPerSample := by
      split <;> omega
    have written := (put_stores out _ inside).2.1
    rw [outLoop]
    refine (ih _ _ _ next).trans ?_
    rw [written, List.length_append, length, Nat.succ_mul]
    omega

theorem length_mixFunc (s : DsMixer.State) (size : ℕ) (ok : Bool)
    (lt : s.primary.playpos < bufferSize) :
    (s.mixFunc size ok).primary.written.length =
      s.tomix size * s.primary.format.nChannels * (s.primary.format.wBitsPerSample / 8) := by
  have below : u32 (s.primary.playpos * 8) / s.primary.format.wBitsPerSample <
      bufferSize * 8 / s.primary.format.wBitsPerSample := by
    unfold bufferSize at lt
    unfold u32
    rcases s.primary.format.element with h | h <;> rw [h.2.1, h.2.2] <;> omega
  unfold State.mixFunc
  dsimp only
  rw [clearMix_primary, allocMix_primary]
  exact (length_outLoop _ _ _ _ _ _ below).trans (Nat.zero_add _)

theorem Law.frames {s s' : State} {ok : Bool} {copied : Option (List UInt8)} (law : Law s' copied)
    (done : mixAndCopy s ok = some (s', copied)) (ring : s.mixer.primary.playpos < bufferSize) :
    s.mixer.tomix (bufferSize / s.ulNumDartBuffs) * s.mixer.primary.format.nChannels *
      (s.mixer.primary.format.wBitsPerSample / 8) = bufferSize / s.ulNumDartBuffs := by
  unfold mixAndCopy at done
  by_cases none_left : s.ulNumDartBuffs = 0
  · rw [if_pos none_left] at done
    cases done
  · rw [if_neg none_left] at done
    have parts := Prod.mk.inj (Option.some.inj done)
    have same := law.same _ parts.2.symm
    rw [← parts.1] at same
    have lengths := congrArg List.length same
    rw [length_slice, length_mixFunc _ _ _ ring] at lengths
    exact lengths.symm

theorem rate48 : 0 < 48000 := Nat.succ_pos 47999

/-- 16-bit stereo at 48 kHz. -/
def format48 : OutFormat := ⟨16, 2, 48000, sixteen_bits, two_channels, rate48⟩

def run48 : List Op := [.setFormat format48 true, .play false true true]

end Odin32.Dart
