import Odin32.DsMixer

/-! # Locked regions of sound buffers

`SoundBufLock` and `PrimBufLock`, with both pointers for the regions given. A pointer is known by
its distance from `lpBuffer`. -/

set_option autoImplicit false

namespace Odin32.SoundLock

open Word
open DsMixer (long ulong bufferSize)

def dsblockFromwritecursor : UInt32 := 1

/-- What a lock stores: two regions, the second pointer `none` for `NULL`. -/
structure Regions where
  audioPtr1 : ℕ
  audioBytes1 : ℕ
  audioPtr2 : Option ℕ
  audioBytes2 : ℕ
deriving DecidableEq

/-- What a lock reads of a secondary buffer. -/
structure SoundBuf where
  dwBufferBytes : UInt32
  writepos : UInt32

/-- What a lock reads of the primary buffer and the DART device, while they play. -/
structure PrimBuff where
  rate : ℤ
  bps : ℕ
  channels : ℕ
  lLastBuff : ℕ
  ulNumDartBuffs : ℕ

structure Request where
  dwWriteCursor : UInt32
  dwWriteBytes : UInt32
  dwFlags : UInt32

variable (r : Request)

/-- `DSBLOCK_FROMWRITECURSOR` puts the write cursor in place of the one given. -/
def cursorFrom (writeCursor : ℕ) : ℕ :=
  if r.dwFlags &&& dsblockFromwritecursor ≠ 0 then writeCursor else r.dwWriteCursor.toNat

def soundBufLock (me : SoundBuf) : Option Regions :=
  if me.dwBufferBytes < r.dwWriteBytes then none
  else
    let dwBufferBytes := me.dwBufferBytes.toNat
    let dwWriteBytes := r.dwWriteBytes.toNat
    let dwWriteCursor := cursorFrom r me.writepos.toNat
    if add32 dwWriteCursor dwWriteBytes > dwBufferBytes then
      let audioBytes1 := sub32 dwBufferBytes dwWriteCursor
      some ⟨dwWriteCursor, audioBytes1, some 0, sub32 dwWriteBytes audioBytes1⟩
    else some ⟨dwWriteCursor, dwWriteBytes, none, 0⟩

def dartGetPosition (me : PrimBuff) : ℕ :=
  let size := bufferSize / me.ulNumDartBuffs
  let position := me.lLastBuff * size + size
  if position > bufferSize then 0 else position

/-- The play cursor and the write cursor. -/
def primBufGetCurrentPosition (me : PrimBuff) : ℕ × ℕ :=
  let lDartPos := dartGetPosition me
  let ahead := (long (me.rate * me.channels * (me.bps / 8 : ℕ) * 15)).tdiv 1000
  (lDartPos, ulong ((long (lDartPos + ahead)).tmod bufferSize))

def primBufLock (me : PrimBuff) : Option Regions :=
  if bufferSize < r.dwWriteBytes.toNat then none
  else
    let dwCurPlayPos := (primBufGetCurrentPosition me).1
    let dwWriteBytes := r.dwWriteBytes.toNat
    let dwWriteCursor := cursorFrom r (primBufGetCurrentPosition me).2
    if dwWriteCursor > dwCurPlayPos then
      if add32 dwWriteCursor dwWriteBytes > bufferSize then
        let audioBytes1 := sub32 bufferSize dwWriteCursor
        let audioBytes2 :=
          if sub32 dwWriteBytes audioBytes1 > dwCurPlayPos then dwCurPlayPos
          else sub32 dwWriteBytes audioBytes1
        some ⟨dwWriteCursor, audioBytes1, some 0, audioBytes2⟩
      else some ⟨dwWriteCursor, dwWriteBytes, none, 0⟩
    else if add32 dwWriteCursor dwWriteBytes > dwCurPlayPos then
      some ⟨dwWriteCursor, sub32 dwWriteCursor dwCurPlayPos, none, 0⟩
    else some ⟨dwWriteCursor, dwWriteBytes, none, 0⟩

/-! ## What it is for -/

/-- A buffer to lock; the primary buffer plays. -/
inductive Target where
  | secondary (me : SoundBuf)
  | primary (me : PrimBuff)

variable (t : Target)

def lock : Option Regions :=
  match t with
  | .secondary me => soundBufLock r me
  | .primary me => primBufLock r me

def size : ℕ :=
  match t with
  | .secondary me => me.dwBufferBytes.toNat
  | .primary _ => bufferSize

/-- The cursor the regions should start at. -/
def cursor : ℕ :=
  match t with
  | .secondary me => cursorFrom r me.writepos.toNat
  | .primary me => cursorFrom r (primBufGetCurrentPosition me).2

/-- The bytes from a cursor around the ring to the play cursor. -/
def beforePlay (cursor play : ℕ) : ℕ :=
  if cursor > play then bufferSize - cursor + play else play - cursor

/-- What the lengths should add up to. -/
def total : ℕ :=
  match t with
  | .secondary _ => r.dwWriteBytes.toNat
  | .primary me =>
    min r.dwWriteBytes.toNat (beforePlay (cursor r t) (primBufGetCurrentPosition me).1)

structure Right (regions : Regions) : Prop where
  start : regions.audioPtr1 = cursor r t
  inside : regions.audioPtr1 + regions.audioBytes1 ≤ size t
  inside2 : ∀ ptr, regions.audioPtr2 = some ptr → ptr + regions.audioBytes2 ≤ size t
  /-- The second region is the front of the buffer, behind the first one at the end. -/
  continues : ∀ ptr, regions.audioPtr2 = some ptr →
    ptr = 0 ∧ regions.audioPtr1 + regions.audioBytes1 = size t
  apart : ∀ ptr, regions.audioPtr2 = some ptr → ptr + regions.audioBytes2 ≤ regions.audioPtr1
  total : regions.audioBytes1 + regions.audioBytes2 = total r t
  single : cursor r t + r.dwWriteBytes.toNat ≤ size t → regions.audioPtr2 = none
  null : regions.audioPtr2 = none → regions.audioBytes2 = 0

def Promised : Prop := ∀ regions, lock r t = some regions → Right r t regions

/-- The bytes are more than the buffer has, or the cursor is in the buffer, the end is a word, and
from a cursor before the play cursor of the primary buffer on the bytes end before that. -/
def Fits : Prop :=
  r.dwWriteBytes.toNat ≤ size t → cursor r t ≤ size t ∧
    match t with
    | .secondary _ => cursor r t + r.dwWriteBytes.toNat < 0x100000000
    | .primary me =>
      (primBufGetCurrentPosition me).1 ≤ cursor r t ∨
        cursor r t + r.dwWriteBytes.toNat ≤ (primBufGetCurrentPosition me).1

variable {r t}

/-! ## The locks -/

theorem cursorFrom_lt {writeCursor : ℕ} (word : writeCursor < 0x100000000) :
    cursorFrom r writeCursor < 0x100000000 := by
  rw [cursorFrom]
  split_ifs
  · exact word
  · exact r.dwWriteCursor.toNat_lt

theorem ulong_lt (n : ℤ) : ulong n < 0x100000000 := by
  rw [ulong]
  omega

theorem dartGetPosition_le (me : PrimBuff) : dartGetPosition me ≤ bufferSize := by
  rw [dartGetPosition]
  split_ifs with beyond
  · exact Nat.zero_le _
  · exact Nat.not_lt.mp beyond

theorem sub32_eq {a b : ℕ} (a_lt : a < 0x100000000) (b_lt : b < 0x100000000) :
    sub32 a b = if b ≤ a then a - b else a + 0x100000000 - b := by
  rw [sub32, u32]
  split_ifs <;> omega

theorem add32_eq {a b : ℕ} (a_lt : a < 0x100000000) (b_lt : b < 0x100000000) :
    add32 a b = if a + b < 0x100000000 then a + b else a + b - 0x100000000 := by
  rw [add32, u32]
  split_ifs <;> omega

theorem right_single_iff {first bytes second : ℕ} :
    Right r t ⟨first, bytes, none, second⟩ ↔ first = cursor r t ∧ first + bytes ≤ size t ∧
      second = 0 ∧ bytes + second = total r t := by
  constructor
  · intro right
    exact ⟨right.start, right.inside, right.null rfl, right.total⟩
  · rintro ⟨start, inside, none, sum⟩
    have nothing : ∀ (P : ℕ → Prop) ptr, Option.none = some ptr → P ptr :=
      fun _ _ no => by cases no
    exact ⟨start, inside, nothing _, nothing _, nothing _, sum, fun _ => rfl, fun _ => none⟩

theorem right_double_iff {first bytes second : ℕ} :
    Right r t ⟨first, bytes, some 0, second⟩ ↔ first = cursor r t ∧ first + bytes = size t ∧
      second ≤ first ∧ bytes + second = total r t ∧
      size t < cursor r t + r.dwWriteBytes.toNat := by
  constructor
  · intro right
    refine ⟨right.start, (right.continues 0 rfl).2, ?_, right.total, ?_⟩
    · have apart := right.apart 0 rfl
      rwa [Nat.zero_add] at apart
    · refine Nat.not_le.mp fun fits => ?_
      cases right.single fits
  · rintro ⟨start, last, apart, sum, wraps⟩
    refine ⟨start, Nat.le_of_eq last, ?_, ?_, ?_, sum, fun fits => ?_, fun no => by cases no⟩
    · rintro ptr ⟨⟩
      show 0 + second ≤ size t
      omega
    · rintro ptr ⟨⟩
      exact ⟨rfl, last⟩
    · rintro ptr ⟨⟩
      show 0 + second ≤ first
      omega
    · exact absurd wraps (Nat.not_lt.mpr fits)

theorem promised_some {regions : Regions} (locked : lock r t = some regions) :
    Promised r t ↔ Right r t regions := by
  constructor
  · intro promised
    exact promised regions locked
  · intro right regions' locked'
    rw [locked] at locked'
    obtain rfl := Option.some.inj locked'
    exact right

theorem secondary_iff (me : SoundBuf) : Promised r (.secondary me) ↔ Fits r (.secondary me) := by
  have bytes := r.dwWriteBytes.toNat_lt
  have whole := me.dwBufferBytes.toNat_lt
  have word := cursorFrom_lt (r := r) me.writepos.toNat_lt
  by_cases many : me.dwBufferBytes < r.dwWriteBytes
  · have refused : lock r (.secondary me) = none := if_pos many
    rw [Promised, refused]
    exact ⟨fun _ few => absurd many (Nat.not_lt.mpr few), fun _ _ none => by cases none⟩
  · have few : r.dwWriteBytes.toNat ≤ me.dwBufferBytes.toNat := Nat.not_lt.mp many
    have here : cursor r (.secondary me) = cursorFrom r me.writepos.toNat := rfl
    have all : total r (.secondary me) = r.dwWriteBytes.toNat := rfl
    have room : size (.secondary me) = me.dwBufferBytes.toNat := rfl
    have locked : lock r (.secondary me) =
        if add32 (cursorFrom r me.writepos.toNat) r.dwWriteBytes.toNat >
            me.dwBufferBytes.toNat then
          some ⟨cursorFrom r me.writepos.toNat,
            sub32 me.dwBufferBytes.toNat (cursorFrom r me.writepos.toNat), some 0,
            sub32 r.dwWriteBytes.toNat
              (sub32 me.dwBufferBytes.toNat (cursorFrom r me.writepos.toNat))⟩
        else some ⟨cursorFrom r me.writepos.toNat, r.dwWriteBytes.toNat, none, 0⟩ := if_neg many
    have fits : Fits r (.secondary me) ↔
        cursorFrom r me.writepos.toNat ≤ me.dwBufferBytes.toNat ∧
          cursorFrom r me.writepos.toNat + r.dwWriteBytes.toNat < 0x100000000 := by
      exact ⟨fun fits => fits few, fun inside _ => inside⟩
    rw [fits]
    rw [add32_eq word bytes] at locked
    have first := sub32_eq whole word
    split_ifs at locked with small beyond beyond
    · rw [promised_some locked, right_double_iff, here, all, room]
      split_ifs at first with inside
      · rw [first, sub32_of_le (by omega) bytes]
        omega
      · omega
    · rw [promised_some locked, right_single_iff, here, all, room]
      omega
    · rw [promised_some locked, right_double_iff, here, all, room]
      split_ifs at first with inside
      · omega
      · omega
    · rw [promised_some locked, right_single_iff, here, all, room]
      omega

theorem primary_iff (me : PrimBuff) : Promised r (.primary me) ↔ Fits r (.primary me) := by
  have bytes := r.dwWriteBytes.toNat_lt
  have word := cursorFrom_lt (r := r) (ulong_lt
    ((long (dartGetPosition me +
      (long (me.rate * me.channels * (me.bps / 8 : ℕ) * 15)).tdiv 1000)).tmod bufferSize))
  have below := dartGetPosition_le me
  by_cases many : bufferSize < r.dwWriteBytes.toNat
  · have refused : lock r (.primary me) = none := if_pos many
    rw [Promised, refused]
    exact ⟨fun _ few => absurd many (Nat.not_lt.mpr few), fun _ _ none => by cases none⟩
  · have few : r.dwWriteBytes.toNat ≤ bufferSize := Nat.not_lt.mp many
    have locked : lock r (.primary me) = _ := if_neg many
    have here : cursor r (.primary me) = cursorFrom r (primBufGetCurrentPosition me).2 := rfl
    have all : total r (.primary me) = min r.dwWriteBytes.toNat
      (beforePlay (cursorFrom r (primBufGetCurrentPosition me).2)
        (primBufGetCurrentPosition me).1) := rfl
    have room : size (.primary me) = bufferSize := rfl
    have fits : Fits r (.primary me) ↔
        cursorFrom r (primBufGetCurrentPosition me).2 ≤ bufferSize ∧
          ((primBufGetCurrentPosition me).1 ≤ cursorFrom r (primBufGetCurrentPosition me).2 ∨
            cursorFrom r (primBufGetCurrentPosition me).2 + r.dwWriteBytes.toNat ≤
              (primBufGetCurrentPosition me).1) :=
      ⟨fun fits => fits few, fun inside _ => inside⟩
    have word : cursorFrom r (primBufGetCurrentPosition me).2 < 0x100000000 := word
    have below : (primBufGetCurrentPosition me).1 ≤ bufferSize := below
    have size : bufferSize = 32768 := rfl
    have sum := add32_eq word bytes
    by_cases after : cursorFrom r (primBufGetCurrentPosition me).2 >
        (primBufGetCurrentPosition me).1
    · have way : beforePlay (cursorFrom r (primBufGetCurrentPosition me).2)
          (primBufGetCurrentPosition me).1 = bufferSize -
            cursorFrom r (primBufGetCurrentPosition me).2 + (primBufGetCurrentPosition me).1 :=
        if_pos after
      rw [if_pos after] at locked
      by_cases beyond : add32 (cursorFrom r (primBufGetCurrentPosition me).2)
          r.dwWriteBytes.toNat > bufferSize
      · rw [if_pos beyond] at locked
        rw [fits, promised_some locked, right_double_iff, here, all, room, way]
        by_cases inside : cursorFrom r (primBufGetCurrentPosition me).2 ≤ bufferSize
        · have first := sub32_of_le inside (show bufferSize < 0x100000000 by decide)
          have second := sub32_of_le (show bufferSize -
            cursorFrom r (primBufGetCurrentPosition me).2 ≤ r.dwWriteBytes.toNat by
              split_ifs at sum <;> omega) bytes
          rw [first, second]
          split_ifs <;> split_ifs at sum <;> omega
        · have first := sub32_eq (show bufferSize < 0x100000000 by decide) word
          rw [if_neg inside] at first
          omega
      · rw [if_neg beyond] at locked
        rw [fits, promised_some locked, right_single_iff, here, all, room, way]
        split_ifs at sum <;> omega
    · have way : beforePlay (cursorFrom r (primBufGetCurrentPosition me).2)
          (primBufGetCurrentPosition me).1 = (primBufGetCurrentPosition me).1 -
            cursorFrom r (primBufGetCurrentPosition me).2 := if_neg after
      rw [if_neg after] at locked
      have sum : add32 (cursorFrom r (primBufGetCurrentPosition me).2) r.dwWriteBytes.toNat =
          cursorFrom r (primBufGetCurrentPosition me).2 + r.dwWriteBytes.toNat :=
        add32_of_lt (by omega)
      rw [sum] at locked
      by_cases past : cursorFrom r (primBufGetCurrentPosition me).2 + r.dwWriteBytes.toNat >
          (primBufGetCurrentPosition me).1
      · rw [if_pos past] at locked
        rw [fits, promised_some locked, right_single_iff, here, all, room, way]
        have length := sub32_eq word (show (primBufGetCurrentPosition me).1 < 0x100000000 by omega)
        split_ifs at length <;> omega
      · rw [if_neg past] at locked
        rw [fits, promised_some locked, right_single_iff, here, all, room, way]
        omega

/-- The regions of a lock are right just when the cursor is in the buffer, and bytes from behind
the play cursor of the primary buffer end there. -/
theorem soundLock_promised_iff (r : Request) (t : Target) : Promised r t ↔ Fits r t := by
  cases t with
  | secondary me => exact secondary_iff me
  | primary me => exact primary_iff me

/-- Bytes up to a play cursor, and more. -/
theorem overPlay_not_promised : ¬ ∀ (r : Request) (t : Target), Promised r t := by
  intro all
  have promised := all ⟨0, 8192, 0⟩ (.primary ⟨22050, 16, 2, 0, 8⟩)
  have locked : lock ⟨0, 8192, 0⟩ (.primary ⟨22050, 16, 2, 0, 8⟩) =
      some ⟨0, 0xfffff000, none, 0⟩ := by decide +kernel
  exact absurd (promised _ locked).inside (by decide)

end Odin32.SoundLock
