import Mathlib.Data.Nat.Count
import Mathlib.Data.List.Nodup
import Mathlib.Algebra.BigOperators.Group.List.Basic
import Mathlib.Algebra.GroupWithZero.Nat
import Mathlib.Tactic.Common

/-! # Notifications of sound buffers

A secondary buffer with a notification object, and the tail of `MixOneBuffer` that tells it how
the play position moved. An event is known by the number of its notification. -/

set_option autoImplicit false

namespace Odin32.SoundNotify

def dsbpnOffsetstop : ℕ := 0xffffffff

structure Notify where
  cPositions : ℕ
  /-- `dwOffset` of each notification. -/
  dwOffset : ℕ → ℕ

/-- What a mixing step reads and writes of a buffer. -/
structure Buf where
  notify : Notify
  dwBufferBytes : ℕ
  playpos : ℕ
  fPlaying : Bool
  fLoop : Bool

variable (me : Notify)

/-- The events that are signalled, in order. -/
def checkPos (dwOldpos dwNewpos : ℕ) : List ℕ :=
  (List.range me.cPositions).filter fun i =>
    if me.dwOffset i = dsbpnOffsetstop then false
    else if dwOldpos < dwNewpos then
      decide (me.dwOffset i ≥ dwOldpos ∧ me.dwOffset i < dwNewpos)
    else decide (me.dwOffset i ≥ dwOldpos ∨ me.dwOffset i < dwNewpos)

def checkStop : List ℕ :=
  (List.range me.cPositions).filter fun i => decide (me.dwOffset i = dsbpnOffsetstop)

/-- `MixOneBuffer` for frames that advance the play position by so many bytes. At its end a buffer
that does not loop stops. -/
def mixOneBuffer (b : Buf) (advance : ℕ) : Buf × List ℕ :=
  let inpos := b.playpos + advance
  let ends := decide (inpos ≥ b.dwBufferBytes) && !b.fLoop
  let playpos :=
    if inpos ≥ b.dwBufferBytes then if b.fLoop then inpos - b.dwBufferBytes else inpos else inpos
  ({ b with playpos := playpos, fPlaying := b.fPlaying && !ends },
    (if ends then checkStop b.notify else []) ++ checkPos b.notify b.playpos playpos)

/-- The mixing steps; a buffer that does not play is left alone. -/
def run : Buf → List ℕ → Buf × List ℕ
  | b, [] => (b, [])
  | b, advance :: rest =>
    if b.fPlaying then
      let mixed := mixOneBuffer b advance
      let later := run mixed.1 rest
      (later.1, mixed.2 ++ later.2)
    else run b rest

/-! ## What it is for -/

/-- The place of a byte behind the play position. -/
def Buf.place (b : Buf) (j : ℕ) : ℕ :=
  if b.fLoop then (b.playpos + j) % b.dwBufferBytes else b.playpos + j

/-- How often the play position moves past a place. -/
def Buf.passes (b : Buf) (advance place : ℕ) : ℕ := Nat.count (fun j => b.place j = place) advance

/-- The buffer comes to its end. -/
def Buf.Ends (b : Buf) (advance : ℕ) : Prop :=
  b.fLoop = false ∧ b.dwBufferBytes ≤ b.playpos + advance

instance (b : Buf) (advance : ℕ) : Decidable (b.Ends advance) := inferInstanceAs (Decidable (_ ∧ _))

/-- A step signals each event as often as its offset is passed, and the stop events at the end. -/
def StepRight (b : Buf) (advance : ℕ) : Prop :=
  ∀ i < b.notify.cPositions, (mixOneBuffer b advance).2.count i =
    if b.notify.dwOffset i = dsbpnOffsetstop then if b.Ends advance then 1 else 0
    else b.passes advance (b.notify.dwOffset i)

def StepsRight : Buf → List ℕ → Prop
  | _, [] => True
  | b, advance :: rest =>
    if b.fPlaying then StepRight b advance ∧ StepsRight (mixOneBuffer b advance).1 rest
    else StepsRight b rest

structure Promised (b : Buf) (advances : List ℕ) : Prop where
  steps : StepsRight b advances
  /-- A looping buffer whose play position goes round so often. -/
  lap : b.fLoop = true → b.fPlaying = true → ∀ laps, advances.sum = laps * b.dwBufferBytes →
    ∀ i < b.notify.cPositions, b.notify.dwOffset i ≠ dsbpnOffsetstop →
      (run b advances).2.count i = laps
  through : b.fLoop = false → b.fPlaying = true → (run b advances).1.fPlaying = false →
    ∀ i < b.notify.cPositions,
      b.notify.dwOffset i = dsbpnOffsetstop ∨ b.playpos ≤ b.notify.dwOffset i →
      (run b advances).2.count i = 1

/-- Every step of a buffer that plays moves the play position, unless there is no offset. -/
def Fits : Buf → List ℕ → Prop
  | _, [] => True
  | b, advance :: rest =>
    if b.fPlaying then
      (advance = 0 → ∀ i < b.notify.cPositions, b.notify.dwOffset i = dsbpnOffsetstop) ∧
        Fits (mixOneBuffer b advance).1 rest
    else Fits b rest

/-- The offsets and the play position are in the buffer. -/
structure Buf.Ok (b : Buf) : Prop where
  offsets : ∀ i < b.notify.cPositions,
    b.notify.dwOffset i < b.dwBufferBytes ∨ b.notify.dwOffset i = dsbpnOffsetstop
  small : b.dwBufferBytes ≤ dsbpnOffsetstop
  inside : b.fPlaying = true → b.playpos < b.dwBufferBytes

/-! ## One step -/

theorem count_events (n i : ℕ) (hits : ℕ → Bool) (hi : i < n) :
    ((List.range n).filter hits).count i = if hits i then 1 else 0 := by
  rw [(List.nodup_range.filter hits).count]
  simp [hi]

theorem count_from (p o n : ℕ) :
    Nat.count (fun j => p + j = o) n = if p ≤ o ∧ o < p + n then 1 else 0 := by
  induction n with
  | zero =>
    rw [Nat.count_zero, if_neg (by omega)]
  | succ n ih =>
    rw [Nat.count_succ, ih]
    split_ifs <;> omega

theorem count_congr_below (p q : ℕ → Prop) [DecidablePred p] [DecidablePred q] (n : ℕ)
    (same : ∀ j < n, p j ↔ q j) : Nat.count p n = Nat.count q n := by
  induction n with
  | zero => simp
  | succ n ih =>
    rw [Nat.count_succ, Nat.count_succ, ih fun j hj => same j (by omega)]
    simp only [same n (by omega)]

theorem count_round (p o n size : ℕ) (inside : p < size) (short : n ≤ size) (ho : o < size) :
    Nat.count (fun j => (p + j) % size = o) n =
      if p + n < size then if p ≤ o ∧ o < p + n then 1 else 0
      else if p ≤ o ∨ o < p + n - size then 1 else 0 := by
  have before : ∀ m ≤ size - p, Nat.count (fun j => (p + j) % size = o) m =
      if p ≤ o ∧ o < p + m then 1 else 0 := by
    intro m hm
    rw [← count_from]
    apply count_congr_below
    intro j hj
    rw [Nat.mod_eq_of_lt (by omega)]
  by_cases h : p + n < size
  · rw [if_pos h, before n (by omega)]
  · rw [if_neg h, show n = (size - p) + (p + n - size) by omega, Nat.count_add,
      before (size - p) le_rfl]
    have after : Nat.count (fun j => (p + (size - p + j)) % size = o) (p + n - size) =
        if 0 ≤ o ∧ o < 0 + (p + n - size) then 1 else 0 := by
      rw [← count_from]
      apply count_congr_below
      intro j hj
      rw [show p + (size - p + j) = j + size by omega, Nat.add_mod_right,
        Nat.mod_eq_of_lt (by omega), Nat.zero_add]
    rw [after]
    split_ifs <;> omega

variable (b : Buf) (advance : ℕ)

theorem passes_zero (place : ℕ) : b.passes 0 place = 0 := Nat.count_zero _

theorem count_checkStop (i : ℕ) (hi : i < me.cPositions) :
    (checkStop me).count i = if me.dwOffset i = dsbpnOffsetstop then 1 else 0 := by
  rw [checkStop, count_events _ _ _ hi]
  simp only [decide_eq_true_eq]

theorem count_checkPos (old new i : ℕ) (hi : i < me.cPositions)
    (offset : me.dwOffset i ≠ dsbpnOffsetstop) :
    (checkPos me old new).count i =
      if old < new then if old ≤ me.dwOffset i ∧ me.dwOffset i < new then 1 else 0
      else if old ≤ me.dwOffset i ∨ me.dwOffset i < new then 1 else 0 := by
  rw [checkPos, count_events _ _ _ hi, if_neg offset]
  split_ifs with h1 h2 h3 h4 <;> simp_all

theorem count_checkPos_stop (old new i : ℕ) (hi : i < me.cPositions)
    (stop : me.dwOffset i = dsbpnOffsetstop) : (checkPos me old new).count i = 0 := by
  rw [checkPos, count_events _ _ _ hi, if_pos stop]
  rfl

theorem count_mix (i : ℕ) : (mixOneBuffer b advance).2.count i =
    (if b.Ends advance then (checkStop b.notify).count i else 0) +
      (checkPos b.notify b.playpos (mixOneBuffer b advance).1.playpos).count i := by
  rw [mixOneBuffer, List.count_append]
  congr 1
  by_cases h : b.Ends advance
  · simp [h, h.1, h.2]
  · rw [if_neg h]
    have : ¬ (b.dwBufferBytes ≤ b.playpos + advance ∧ b.fLoop = false) := fun c => h ⟨c.2, c.1⟩
    simp [this]

theorem playpos_mix : (mixOneBuffer b advance).1.playpos =
    if b.fLoop ∧ b.dwBufferBytes ≤ b.playpos + advance then
      b.playpos + advance - b.dwBufferBytes
    else b.playpos + advance := by
  unfold mixOneBuffer
  cases b.fLoop <;> simp

theorem stop_right (i : ℕ) (hi : i < b.notify.cPositions)
    (stop : b.notify.dwOffset i = dsbpnOffsetstop) :
    (mixOneBuffer b advance).2.count i = if b.Ends advance then 1 else 0 := by
  rw [count_mix, count_checkPos_stop _ _ _ _ hi stop, count_checkStop _ _ hi, if_pos stop,
    Nat.add_zero]

theorem offset_right (ok : b.Ok) (playing : b.fPlaying = true) (short : advance < b.dwBufferBytes)
    (moved : 0 < advance) (i : ℕ) (hi : i < b.notify.cPositions)
    (offset : b.notify.dwOffset i ≠ dsbpnOffsetstop) :
    (mixOneBuffer b advance).2.count i = b.passes advance (b.notify.dwOffset i) := by
  have low := (ok.offsets i hi).resolve_right offset
  have inside := ok.inside playing
  have none : (if b.Ends advance then (checkStop b.notify).count i else 0) = 0 := by
    rw [count_checkStop _ _ hi, if_neg offset, ite_self]
  rw [count_mix, none, count_checkPos _ _ _ _ hi offset, playpos_mix, Nat.zero_add, Buf.passes]
  cases loops : b.fLoop with
  | false =>
    simp only [Buf.place, loops, Bool.false_eq_true, false_and, if_false]
    rw [count_from, if_pos (by omega)]
  | true =>
    simp only [Buf.place, loops, true_and, if_true]
    rw [count_round _ _ _ _ inside short.le low]
    split_ifs <;> omega

theorem offset_stays (playing : b.fPlaying = true) (ok : b.Ok) (i : ℕ)
    (hi : i < b.notify.cPositions) (offset : b.notify.dwOffset i ≠ dsbpnOffsetstop) :
    (mixOneBuffer b 0).2.count i = 1 := by
  have inside := ok.inside playing
  have none : (if b.Ends 0 then (checkStop b.notify).count i else 0) = 0 := by
    rw [count_checkStop _ _ hi, if_neg offset, ite_self]
  have stays : (mixOneBuffer b 0).1.playpos = b.playpos := by
    rw [playpos_mix]
    exact if_neg fun c => by omega
  rw [count_mix, none, count_checkPos _ _ _ _ hi offset, stays, if_neg (lt_irrefl _),
    if_pos (le_or_gt _ _)]

theorem stepRight_iff (ok : b.Ok) (playing : b.fPlaying = true)
    (short : advance < b.dwBufferBytes) : StepRight b advance ↔
      (advance = 0 → ∀ i < b.notify.cPositions, b.notify.dwOffset i = dsbpnOffsetstop) := by
  constructor
  · rintro right rfl i hi
    by_contra offset
    have := right i hi
    rw [offset_stays b playing ok i hi offset, if_neg offset, passes_zero] at this
    omega
  · intro fits i hi
    by_cases stop : b.notify.dwOffset i = dsbpnOffsetstop
    · rw [if_pos stop, stop_right b advance i hi stop]
    · rw [if_neg stop]
      apply offset_right b advance ok playing short _ i hi stop
      by_contra still
      exact stop (fits (by omega) i hi)

/-! ## Runs -/

@[simp] theorem mix_notify : (mixOneBuffer b advance).1.notify = b.notify := rfl

@[simp] theorem mix_bytes : (mixOneBuffer b advance).1.dwBufferBytes = b.dwBufferBytes := rfl

@[simp] theorem mix_loop : (mixOneBuffer b advance).1.fLoop = b.fLoop := rfl

theorem mix_playing : (mixOneBuffer b advance).1.fPlaying = true ↔
    b.fPlaying = true ∧ ¬ b.Ends advance := by
  rw [mixOneBuffer, Buf.Ends]
  cases b.fPlaying <;> cases b.fLoop <;> simp

theorem mix_ok (ok : b.Ok) (short : advance < b.dwBufferBytes) : (mixOneBuffer b advance).1.Ok where
  offsets := ok.offsets
  small := ok.small
  inside := by
    intro playing
    have before := (mix_playing b advance).mp playing
    have inside := ok.inside before.1
    have goesOn := before.2
    rw [playpos_mix, mix_bytes]
    rw [Buf.Ends] at goesOn
    cases loops : b.fLoop with
    | false =>
      rw [if_neg (by simp)]
      simp only [loops, true_and] at goesOn
      omega
    | true =>
      by_cases wraps : b.dwBufferBytes ≤ b.playpos + advance
      · rw [if_pos ⟨rfl, wraps⟩]
        omega
      · rw [if_neg fun c => wraps c.2]
        omega

theorem stepsRight_iff (advances : List ℕ) (b : Buf) (ok : b.Ok)
    (short : ∀ advance ∈ advances, advance < b.dwBufferBytes) :
    StepsRight b advances ↔ Fits b advances := by
  induction advances generalizing b with
  | nil => exact Iff.rfl
  | cons advance rest ih =>
    have first := short advance (by simp)
    have later : ∀ next ∈ rest, next < b.dwBufferBytes := fun next h => short next (by simp [h])
    rw [StepsRight, Fits]
    by_cases playing : b.fPlaying = true
    · rw [if_pos playing, if_pos playing, stepRight_iff b advance ok playing first,
        ih _ (mix_ok b advance ok first) later]
    · rw [if_neg playing, if_neg playing, ih b ok later]

theorem place_mix (j : ℕ) (loops : b.fLoop = true) :
    (mixOneBuffer b advance).1.place j = b.place (advance + j) := by
  rw [Buf.place, Buf.place, mix_loop, mix_bytes, if_pos loops, if_pos loops, playpos_mix]
  by_cases h : b.dwBufferBytes ≤ b.playpos + advance
  · rw [if_pos ⟨loops, h⟩, ← Nat.add_mod_right]
    congr 1
    omega
  · rw [if_neg fun c => h c.2, Nat.add_assoc]

theorem count_run_loop (advances : List ℕ) (b : Buf) (ok : b.Ok) (playing : b.fPlaying = true)
    (loops : b.fLoop = true) (short : ∀ advance ∈ advances, advance < b.dwBufferBytes)
    (right : StepsRight b advances) (i : ℕ) (hi : i < b.notify.cPositions)
    (offset : b.notify.dwOffset i ≠ dsbpnOffsetstop) :
    (run b advances).2.count i = b.passes advances.sum (b.notify.dwOffset i) := by
  induction advances generalizing b with
  | nil => rfl
  | cons advance rest ih =>
    have first := short advance (by simp)
    rw [StepsRight, if_pos playing] at right
    have goesOn : (mixOneBuffer b advance).1.fPlaying = true :=
      (mix_playing b advance).mpr ⟨playing, fun ends => Bool.noConfusion (loops.symm.trans ends.1)⟩
    have later := ih _ (mix_ok b advance ok first) goesOn loops
      (fun next h => short next (by simp [h])) right.2 hi offset
    have now := right.1 i hi
    rw [if_neg offset] at now
    rw [run, if_pos playing, List.count_append, now, later, List.sum_cons, Buf.passes, Buf.passes,
      Buf.passes, Nat.count_add]
    congr 1
    apply count_congr_below
    intro j _
    rw [place_mix b advance j loops]
    rfl

theorem passes_laps (loops : b.fLoop = true) (inside : b.playpos < b.dwBufferBytes) (place : ℕ)
    (low : place < b.dwBufferBytes) (laps : ℕ) :
    b.passes (laps * b.dwBufferBytes) place = laps := by
  induction laps with
  | zero => rw [Nat.zero_mul, passes_zero]
  | succ laps ih =>
    rw [Buf.passes] at ih
    rw [Buf.passes, Nat.succ_mul, Nat.count_add, ih]
    congr 1
    simp only [Buf.place, loops, if_true]
    have lap := count_round b.playpos place b.dwBufferBytes b.dwBufferBytes inside le_rfl low
    rw [if_neg (by omega), if_pos (by omega)] at lap
    rw [← lap]
    apply count_congr_below
    intro j _
    rw [show b.playpos + (laps * b.dwBufferBytes + j) =
      b.playpos + j + laps * b.dwBufferBytes by omega, Nat.add_mul_mod_self_right]

theorem run_stopped (advances : List ℕ) (b : Buf) (stopped : b.fPlaying = false) :
    run b advances = (b, []) := by
  induction advances with
  | nil => rfl
  | cons advance rest ih => rw [run, stopped, if_neg Bool.false_ne_true, ih]

theorem count_run_through (advances : List ℕ) (b : Buf) (ok : b.Ok) (playing : b.fPlaying = true)
    (once : b.fLoop = false) (short : ∀ advance ∈ advances, advance < b.dwBufferBytes)
    (right : StepsRight b advances) (done : (run b advances).1.fPlaying = false)
    (i : ℕ) (hi : i < b.notify.cPositions) :
    (run b advances).2.count i =
      if b.notify.dwOffset i = dsbpnOffsetstop ∨ b.playpos ≤ b.notify.dwOffset i then 1 else 0 := by
  induction advances generalizing b with
  | nil =>
    rw [run, playing] at done
    exact Bool.noConfusion done
  | cons advance rest ih =>
    have first := short advance (by simp)
    have inside := ok.inside playing
    have small := ok.small
    rw [StepsRight, if_pos playing] at right
    have now := right.1 i hi
    rw [run, if_pos playing] at done ⊢
    have moved : b.passes advance (b.notify.dwOffset i) =
        if b.playpos ≤ b.notify.dwOffset i ∧ b.notify.dwOffset i < b.playpos + advance then 1
        else 0 := by
      rw [← count_from, Buf.passes]
      simp only [Buf.place, once, Bool.false_eq_true, if_false]
    rw [List.count_append, now, moved]
    by_cases ends : b.Ends advance
    · have stopped : (mixOneBuffer b advance).1.fPlaying = false := by
        rw [← Bool.not_eq_true, mix_playing]
        exact fun goesOn => goesOn.2 ends
      rw [run_stopped _ _ stopped, if_pos ends]
      have far := ends.2
      rcases ok.offsets i hi with low | stop
      · simp only [List.count_nil]
        split_ifs <;> omega
      · simp [stop]
    · have goesOn := (mix_playing b advance).mpr ⟨playing, ends⟩
      have later := ih _ (mix_ok b advance ok first) goesOn once
        (fun next h => short next (by simp [h])) right.2 done hi
      have moves : (mixOneBuffer b advance).1.playpos = b.playpos + advance := by
        rw [playpos_mix]
        exact if_neg fun c => Bool.noConfusion (once.symm.trans c.1)
      have before : ¬ b.dwBufferBytes ≤ b.playpos + advance := fun h => ends ⟨once, h⟩
      rw [later, mix_notify, moves]
      by_cases stop : b.notify.dwOffset i = dsbpnOffsetstop
      · simp [stop, ends]
      · have low := (ok.offsets i hi).resolve_right stop
        simp only [stop, false_or, if_false]
        split_ifs <;> omega

/-- The notifications are right exactly when no step of a buffer that plays leaves the play position
where it is: `CheckPos` takes that for a wrap. -/
theorem soundNotify_promised_iff (b : Buf) (advances : List ℕ) (ok : b.Ok)
    (short : ∀ advance ∈ advances, advance < b.dwBufferBytes) :
    Promised b advances ↔ Fits b advances := by
  constructor
  · intro promised
    exact (stepsRight_iff advances b ok short).mp promised.steps
  · intro fits
    have right := (stepsRight_iff advances b ok short).mpr fits
    refine ⟨right, ?_, ?_⟩
    · intro loops playing laps round i hi offset
      rw [count_run_loop advances b ok playing loops short right i hi offset, round]
      exact passes_laps b loops (ok.inside playing) _ ((ok.offsets i hi).resolve_right offset) laps
    · intro once playing done i hi ahead
      rw [count_run_through advances b ok playing once short right done i hi, if_pos ahead]

/-- Eight bytes with the play position near the end, an event at the start and one at the end. -/
def looping : Buf where
  notify := ⟨3, fun i => if i = 0 then 0 else if i = 1 then 7 else dsbpnOffsetstop⟩
  dwBufferBytes := 8
  playpos := 6
  fPlaying := true
  fLoop := true

theorem looping_ok : looping.Ok where
  offsets := by decide
  small := by decide
  inside := by decide

theorem soundNotify_promised_lap : Promised looping [3, 5] :=
  (soundNotify_promised_iff looping [3, 5] looping_ok (by decide)).mpr
    ⟨fun still => absurd still (by decide), fun still => absurd still (by decide), trivial⟩

/-- A step that mixes nothing signals the events at every offset. -/
theorem still_not_promised :
    ¬ ∀ (b : Buf) (advances : List ℕ), b.Ok → (∀ advance ∈ advances, advance < b.dwBufferBytes) →
      Promised b advances := by
  intro all
  have right := (all looping [0] looping_ok (by decide)).steps.1 0 (by decide)
  exact absurd right (by decide)

end Odin32.SoundNotify
