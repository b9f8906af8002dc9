import Odin32.ConsoleScroll

/-! # The window on a console buffer

`SetConsoleScreenBufferSize` and `SetConsoleWindowInfo` place the window of a buffer. A position
and a size that passed the checks against the size of the buffer are `SHORT`s and are stored as
they are. The loops of a resize take a size below zero as an unsigned one and leave the new
block; the call is not defined then. The flag for an update of the screen is left out. -/

set_option autoImplicit false

namespace Odin32.ConsoleWindow

open Console

/-! ## The calls -/

structure SmallRect where
  left : Int16
  top : Int16
  right : Int16
  bottom : Int16

structure Screen where
  buffer : ConsoleBuffer
  /-- `coordWindowSize` -/
  sizeX : ℤ
  sizeY : ℤ
  /-- `coordWindowPosition` -/
  positionX : ℤ
  positionY : ℤ

inductive LastError where
  | invalidParameter
  | notEnoughMemory

structure Answer where
  returned : Bool
  lastError : Option LastError

def succeeded : Answer := ⟨true, none⟩

/-- What `malloc` is asked for, an unsigned number. -/
def ulSize (X Y : Int16) : ℤ := Y.toInt * (X.toInt * 2 + 4) % 0x100000000

/-- `SetConsoleScreenBufferSize`, with what `malloc` gives and where `VioGetCurPos` finds the
cursor. -/
def setConsoleScreenBufferSize (g : ConsoleGlobals) (s : Screen) (X Y : Int16) (mem : Bool)
    (row column : ℕ) : Option (Screen × Answer) :=
  if ulSize X Y = 0 then
    some (⟨s.buffer.setConsoleScreenBufferSize g 0 0 mem row column, 0, 0, 0, 0⟩, succeeded)
  else if mem = false then some (s, ⟨false, some .notEnoughMemory⟩)
  else if X.toInt < 0 ∨ Y.toInt < 0 then none
  else
    let buffer :=
      s.buffer.setConsoleScreenBufferSize g X.toInt.toNat Y.toInt.toNat mem row column
    some (⟨buffer, X.toInt, Y.toInt, 0, 0⟩, succeeded)

/-- The checks of absolute coordinates. -/
def AbsoluteRefused (s : Screen) (r : SmallRect) : Prop :=
  (r.left.toInt < 0 ∨ r.top.toInt < 0 ∨ r.right.toInt ≤ r.left.toInt ∨
    r.bottom.toInt ≤ r.top.toInt) ∨
  r.right.toInt - r.left.toInt > s.buffer.sizeX ∨ r.bottom.toInt - r.top.toInt > s.buffer.sizeY ∨
  r.left.toInt ≥ s.buffer.sizeX ∨ r.top.toInt ≥ s.buffer.sizeY

instance (s : Screen) (r : SmallRect) : Decidable (AbsoluteRefused s r) :=
  inferInstanceAs (Decidable (_ ∨ _))

/-- `iSizeX`, `iSizeY`, `iPosX` and `iPosY`. -/
def moved (s : Screen) (r : SmallRect) : Screen where
  buffer := s.buffer
  sizeX := s.sizeX + r.left.toInt + r.right.toInt
  sizeY := s.sizeY + r.top.toInt + r.bottom.toInt
  positionX := s.positionX + r.left.toInt
  positionY := s.positionY + r.top.toInt

/-- The checks of relative coordinates. -/
def RelativeRefused (s : Screen) (r : SmallRect) : Prop :=
  (moved s r).sizeX > s.buffer.sizeX ∨ (moved s r).sizeY > s.buffer.sizeY ∨
  (moved s r).positionX ≥ s.buffer.sizeX ∨ (moved s r).positionY ≥ s.buffer.sizeY ∨
  (moved s r).sizeX < 0 ∨ (moved s r).sizeY < 0 ∨
  (moved s r).positionX < 0 ∨ (moved s r).positionY < 0

instance (s : Screen) (r : SmallRect) : Decidable (RelativeRefused s r) :=
  inferInstanceAs (Decidable (_ ∨ _))

/-- The window of absolute coordinates. -/
def placed (s : Screen) (r : SmallRect) : Screen where
  buffer := s.buffer
  sizeX := r.right.toInt - r.left.toInt
  sizeY := r.bottom.toInt - r.top.toInt
  positionX := r.left.toInt
  positionY := r.top.toInt

def setConsoleWindowInfo (s : Screen) (fAbsolute : Int32) (r : SmallRect) : Screen × Answer :=
  -- any other value than `TRUE` stands for relative coordinates
  if fAbsolute = 1 then
    if AbsoluteRefused s r then (s, ⟨false, some .invalidParameter⟩) else (placed s r, succeeded)
  else if RelativeRefused s r then (s, ⟨false, some .invalidParameter⟩)
  else (moved s r, succeeded)

/-- A console buffer after its first resize. -/
def newScreen (g : ConsoleGlobals) (x y : ℕ) : Screen := ⟨newBuffer g x y, x, y, 0, 0⟩

inductive Op where
  | bufferSize (X Y : Int16) (mem : Bool) (row column : ℕ)
  | windowInfo (fAbsolute : Int32) (r : SmallRect)

def step (g : ConsoleGlobals) (s : Screen) : Op → Option (Screen × Answer)
  | .bufferSize X Y mem row column => setConsoleScreenBufferSize g s X Y mem row column
  | .windowInfo fAbsolute r => some (setConsoleWindowInfo s fAbsolute r)

/-! ## What they are for -/

/-- The window is a part of the buffer. -/
structure Inside (s : Screen) : Prop where
  positionX : 0 ≤ s.positionX
  positionY : 0 ≤ s.positionY
  sizeX : 1 ≤ s.sizeX
  sizeY : 1 ≤ s.sizeY
  right : s.positionX + s.sizeX ≤ s.buffer.sizeX
  bottom : s.positionY + s.sizeY ≤ s.buffer.sizeY

def Screen.cell (s : Screen) (line column : ℕ) : Cell :=
  s.buffer.storage (s.buffer.lines line) column

/-- A buffer of the new size, with the cells of the old one and blanks. -/
structure Resized (s : Screen) (X Y : Int16) (s' : Screen) : Prop where
  sizeX : s'.buffer.sizeX = X.toInt
  sizeY : s'.buffer.sizeY = Y.toInt
  kept : ∀ line column, line < s.buffer.sizeY → column < s.buffer.sizeX →
    line < s'.buffer.sizeY → column < s'.buffer.sizeX → s'.cell line column = s.cell line column
  blank : ∀ line column, ¬ (line < s.buffer.sizeY ∧ column < s.buffer.sizeX) →
    line < s'.buffer.sizeY → column < s'.buffer.sizeX → s'.cell line column = s.buffer.blank

/-- A call that fails changes nothing, and one that resizes keeps what there is room for. -/
def Right (s : Screen) (op : Op) (s' : Screen) (answer : Answer) : Prop :=
  (answer.returned = false → s' = s) ∧
  ∀ X Y mem row column, op = .bufferSize X Y mem row column → answer.returned = true →
    Resized s X Y s'

def RunPromised (g : ConsoleGlobals) : Screen → List Op → Prop
  | s, [] => Inside s
  | s, op :: ops => Inside s ∧ ∃ s' answer,
      step g s op = some (s', answer) ∧ Right s op s' answer ∧ RunPromised g s' ops

/-- The call is refused, or the window it makes is a part of the buffer. -/
def StepFits (s : Screen) : Op → Prop
  | .bufferSize X Y mem _ _ => (mem = false ∧ ulSize X Y ≠ 0) ∨ (1 ≤ X.toInt ∧ 1 ≤ Y.toInt)
  | .windowInfo fAbsolute r =>
    if fAbsolute = 1 then
      AbsoluteRefused s r ∨ (r.right.toInt ≤ s.buffer.sizeX ∧ r.bottom.toInt ≤ s.buffer.sizeY)
    else RelativeRefused s r ∨
      ((1 ≤ (moved s r).sizeX ∧ 1 ≤ (moved s r).sizeY) ∧
        (moved s r).positionX + (moved s r).sizeX ≤ s.buffer.sizeX ∧
        (moved s r).positionY + (moved s r).sizeY ≤ s.buffer.sizeY)

def RunFits (g : ConsoleGlobals) : Screen → List Op → Prop
  | _, [] => True
  | s, op :: ops =>
    StepFits s op ∧ ∀ s' answer, step g s op = some (s', answer) → RunFits g s' ops

/-! ## Resizes -/

variable {g : ConsoleGlobals} {s : Screen} {op : Op}

theorem ulSize_ne_zero {X Y : Int16} (x : 1 ≤ X.toInt) (y : 1 ≤ Y.toInt) : ulSize X Y ≠ 0 := by
  have width := X.toInt_lt
  have height := Y.toInt_lt
  have low : 1 * 6 ≤ Y.toInt * (X.toInt * 2 + 4) := Int.mul_le_mul y (by omega) (by omega) (by omega)
  have high : Y.toInt * (X.toInt * 2 + 4) ≤ 2 ^ 15 * 65538 :=
    Int.mul_le_mul (by omega) (by omega) (by omega) (by omega)
  rw [ulSize]
  omega

theorem resized_cell (b : ConsoleBuffer) (allocated : b.allocated = true) {x y : ℕ} (row column : ℕ)
    (some_cell : y * (x * 2 + 4) ≠ 0) {line col : ℕ} (below : line < y) (inside : col < x) :
    (b.setConsoleScreenBufferSize g x y true row column).storage
        ((b.setConsoleScreenBufferSize g x y true row column).lines line) col =
      if line < b.sizeY ∧ col < b.sizeX then b.storage (b.lines line) col else b.blank := by
  have blanks := @fillLines_blank b.blank id x _ 0 _ _
    (fun _ _ => ⟨0, 0⟩) below inside (fun j _ k _ eq => Nat.add_left_cancel eq)
  rw [Nat.zero_add] at blanks
  rw [ConsoleBuffer.setConsoleScreenBufferSize, if_neg some_cell, if_neg (not_not_intro rfl)]
  show (if b.allocated = true ∧ line < min b.sizeY y ∧ col < min b.sizeX x then
    b.storage (b.lines line) col else _) = _
  by_cases both : line < b.sizeY ∧ col < b.sizeX
  · rw [if_pos both, if_pos ⟨allocated, lt_min both.1 below, lt_min both.2 inside⟩]
  · rw [if_neg both, if_neg fun small => both
      ⟨lt_of_lt_of_le small.2.1 (Nat.min_le_left ..), lt_of_lt_of_le small.2.2 (Nat.min_le_left ..)⟩]
    exact blanks

theorem resized_frame (b : ConsoleBuffer) {x y : ℕ} (row column : ℕ)
    (some_cell : y * (x * 2 + 4) ≠ 0) :
    (b.setConsoleScreenBufferSize g x y true row column).sizeX = x ∧
      (b.setConsoleScreenBufferSize g x y true row column).sizeY = y ∧
      (b.setConsoleScreenBufferSize g x y true row column).allocated = true := by
  rw [ConsoleBuffer.setConsoleScreenBufferSize, if_neg some_cell, if_neg (not_not_intro rfl)]
  exact ⟨rfl, rfl, rfl⟩

/-! ## Steps -/

/-- The window of a buffer that has cells. -/
structure Inv (s : Screen) : Prop where
  inside : Inside s
  allocated : s.buffer.allocated = true

/-- A step that does what it should, to a state that is as it should. -/
def Keeps (g : ConsoleGlobals) (s : Screen) (op : Op) : Prop :=
  ∃ s' answer, step g s op = some (s', answer) ∧ Right s op s' answer ∧ Inv s'

theorem right_refused (error : LastError) : Right s op s ⟨false, some error⟩ :=
  ⟨fun _ => rfl, fun _ _ _ _ _ _ returned => absurd returned Bool.false_ne_true⟩

theorem bufferSize_keeps (inv : Inv s) {X Y : Int16} {mem : Bool} {row column : ℕ}
    (fits : StepFits s (.bufferSize X Y mem row column)) :
    Keeps g s (.bufferSize X Y mem row column) := by
  rcases fits with ⟨rfl, size⟩ | ⟨x, y⟩
  · refine ⟨s, ⟨false, some .notEnoughMemory⟩, ?_, right_refused _, inv⟩
    rw [step, setConsoleScreenBufferSize, if_neg size, if_pos rfl]
  · have size := ulSize_ne_zero x y
    cases mem with
    | false =>
      refine ⟨s, ⟨false, some .notEnoughMemory⟩, ?_, right_refused _, inv⟩
      rw [step, setConsoleScreenBufferSize, if_neg size, if_pos rfl]
    | true =>
      have some_cell : Y.toInt.toNat * (X.toInt.toNat * 2 + 4) ≠ 0 :=
        Nat.mul_ne_zero (by omega) (by omega)
      obtain ⟨width, height, allocated⟩ :=
        resized_frame (g := g) s.buffer row column some_cell
      refine ⟨⟨s.buffer.setConsoleScreenBufferSize g X.toInt.toNat Y.toInt.toNat true row column,
        X.toInt, Y.toInt, 0, 0⟩, succeeded, ?_,
        ⟨fun returned => absurd returned (by decide), ?_⟩, ?_, allocated⟩
      · rw [step, setConsoleScreenBufferSize, if_neg size, if_neg (by decide), if_neg (by omega)]
      · rintro _ _ _ _ _ ⟨⟩ -
        have cells := fun {line col : ℕ} (below : line < Y.toInt.toNat)
          (inside : col < X.toInt.toNat) =>
          resized_cell (g := g) s.buffer inv.allocated row column some_cell below inside
        refine ⟨?_, ?_, fun line col low left low' left' => ?_, fun line col not low left => ?_⟩
        · show ((ConsoleBuffer.setConsoleScreenBufferSize g s.buffer _ _ _ _ _).sizeX : ℤ) = _
          rw [width]
          omega
        · show ((ConsoleBuffer.setConsoleScreenBufferSize g s.buffer _ _ _ _ _).sizeY : ℤ) = _
          rw [height]
          omega
        · exact (cells (height ▸ low') (width ▸ left')).trans (if_pos ⟨low, left⟩)
        · exact (cells (height ▸ low) (width ▸ left)).trans (if_neg not)
      · refine ⟨Int.le_refl 0, Int.le_refl 0, x, y, ?_, ?_⟩
        · show 0 + X.toInt ≤ ((ConsoleBuffer.setConsoleScreenBufferSize g s.buffer _ _ _ _ _).sizeX)
          rw [width]
          omega
        · show 0 + Y.toInt ≤ ((ConsoleBuffer.setConsoleScreenBufferSize g s.buffer _ _ _ _ _).sizeY)
          rw [height]
          omega

theorem windowInfo_right (s s' : Screen) (fAbsolute : Int32) (r : SmallRect) :
    Right s (.windowInfo fAbsolute r) s' succeeded :=
  ⟨fun returned => absurd returned (by decide), fun _ _ _ _ _ eq => by cases eq⟩

theorem windowInfo_keeps (inv : Inv s) {fAbsolute : Int32} {r : SmallRect}
    (fits : StepFits s (.windowInfo fAbsolute r)) : Keeps g s (.windowInfo fAbsolute r) := by
  rw [StepFits] at fits
  by_cases absolute : fAbsolute = 1
  · rw [if_pos absolute] at fits
    by_cases refused : AbsoluteRefused s r
    · refine ⟨s, ⟨false, some .invalidParameter⟩, ?_, right_refused _, inv⟩
      rw [step, setConsoleWindowInfo, if_pos absolute, if_pos refused]
    · obtain ⟨right, bottom⟩ := fits.resolve_left refused
      refine ⟨placed s r, succeeded, ?_, windowInfo_right .., ?_, inv.allocated⟩
      · rw [step, setConsoleWindowInfo, if_pos absolute, if_neg refused]
      · rw [AbsoluteRefused] at refused
        constructor <;> simp only [placed] <;> omega
  · rw [if_neg absolute] at fits
    by_cases refused : RelativeRefused s r
    · refine ⟨s, ⟨false, some .invalidParameter⟩, ?_, right_refused _, inv⟩
      rw [step, setConsoleWindowInfo, if_neg absolute, if_pos refused]
    · obtain ⟨size, right, bottom⟩ := fits.resolve_left refused
      refine ⟨moved s r, succeeded, ?_, windowInfo_right .., ?_, inv.allocated⟩
      · rw [step, setConsoleWindowInfo, if_neg absolute, if_neg refused]
      · rw [RelativeRefused] at refused
        exact ⟨by omega, by omega, size.1, size.2, right, bottom⟩

theorem step_keeps (inv : Inv s) (fits : StepFits s op) : Keeps g s op := by
  cases op with
  | bufferSize => exact bufferSize_keeps inv fits
  | windowInfo => exact windowInfo_keeps inv fits

theorem fits_of_inside {s' : Screen} {answer : Answer} (stepped : step g s op = some (s', answer))
    (inside : Inside s') : StepFits s op := by
  cases op with
  | bufferSize X Y mem row column =>
    rw [step, setConsoleScreenBufferSize] at stepped
    by_cases size : ulSize X Y = 0
    · rw [if_pos size] at stepped
      obtain ⟨rfl, rfl⟩ := Prod.mk.inj (Option.some.inj stepped)
      exact absurd inside.sizeX (show ¬ (1 : ℤ) ≤ 0 by decide)
    · rw [if_neg size] at stepped
      cases mem with
      | false => exact Or.inl ⟨rfl, size⟩
      | true =>
        rw [if_neg (by decide)] at stepped
        by_cases negative : X.toInt < 0 ∨ Y.toInt < 0
        · rw [if_pos negative] at stepped
          cases stepped
        · rw [if_neg negative] at stepped
          obtain ⟨rfl, rfl⟩ := Prod.mk.inj (Option.some.inj stepped)
          exact Or.inr ⟨inside.sizeX, inside.sizeY⟩
  | windowInfo fAbsolute r =>
    rw [step, setConsoleWindowInfo] at stepped
    rw [StepFits]
    by_cases absolute : fAbsolute = 1
    · rw [if_pos absolute] at stepped ⊢
      by_cases refused : AbsoluteRefused s r
      · exact Or.inl refused
      · rw [if_neg refused] at stepped
        obtain ⟨rfl, rfl⟩ := Prod.mk.inj (Option.some.inj stepped)
        have right := inside.right
        have bottom := inside.bottom
        simp only [placed] at right bottom
        exact Or.inr ⟨by omega, by omega⟩
    · rw [if_neg absolute] at stepped ⊢
      by_cases refused : RelativeRefused s r
      · exact Or.inl refused
      · rw [if_neg refused] at stepped
        obtain ⟨rfl, rfl⟩ := Prod.mk.inj (Option.some.inj stepped)
        exact Or.inr ⟨⟨inside.sizeX, inside.sizeY⟩, inside.right, inside.bottom⟩

/-! ## Runs -/

theorem RunPromised.inside {ops : List Op} (promised : RunPromised g s ops) : Inside s := by
  cases ops with
  | nil => exact promised
  | cons op ops => exact promised.1

theorem runPromised_iff_from (inv : Inv s) (ops : List Op) :
    RunPromised g s ops ↔ RunFits g s ops := by
  induction ops generalizing s with
  | nil => exact iff_of_true inv.inside trivial
  | cons op ops ih =>
    constructor
    · rintro ⟨-, s', answer, stepped, right, promised⟩
      have fits := fits_of_inside stepped promised.inside
      refine ⟨fits, fun t answer' stepped' => ?_⟩
      obtain ⟨t', answer'', stepped'', -, inv'⟩ := step_keeps (g := g) inv fits
      obtain ⟨rfl, rfl⟩ := Prod.mk.inj (Option.some.inj (stepped'.symm.trans stepped))
      obtain ⟨rfl, rfl⟩ := Prod.mk.inj (Option.some.inj (stepped''.symm.trans stepped))
      exact (ih inv').mp promised
    · rintro ⟨fits, rest⟩
      obtain ⟨s', answer, stepped, right, inv'⟩ := step_keeps (g := g) inv fits
      exact ⟨inv.inside, s', answer, stepped, right, (ih inv').mpr (rest s' answer stepped)⟩

theorem inv_new {x y : ℕ} (width : 1 ≤ x) (height : 1 ≤ y) : Inv (newScreen g x y) := by
  obtain ⟨sizeX, sizeY, allocated⟩ := resized_frame (g := g) ConsoleBuffer.created 0 0
    (Nat.mul_ne_zero (show y ≠ 0 by omega) (show x * 2 + 4 ≠ 0 by omega))
  refine ⟨⟨Int.le_refl 0, Int.le_refl 0, ?_, ?_, ?_, ?_⟩, allocated⟩
  · show 1 ≤ (x : ℤ)
    omega
  · show 1 ≤ (y : ℤ)
    omega
  · show 0 + (x : ℤ) ≤ (newBuffer g x y).sizeX
    rw [newBuffer, sizeX, Int.zero_add]
  · show 0 + (y : ℤ) ≤ (newBuffer g x y).sizeY
    rw [newBuffer, sizeY, Int.zero_add]

/-- The window stays in the buffer and the calls do what they should just when each call is
refused or makes a window that is a part of the buffer. -/
theorem consoleWindow_promised_iff (g : ConsoleGlobals) (x y : ℕ) (size : 1 ≤ x ∧ 1 ≤ y)
    (ops : List Op) : RunPromised g (newScreen g x y) ops ↔ RunFits g (newScreen g x y) ops :=
  runPromised_iff_from (inv_new size.1 size.2) ops

/-- A window on the lower right quarter of the buffer, one that leaves the buffer and is refused,
and one moved up by a line. -/
theorem consoleWindow_promised_moved :
    RunPromised ⟨3, 8, false⟩ (newScreen ⟨3, 8, false⟩ 8 4)
      [.windowInfo 1 ⟨4, 2, 8, 4⟩, .windowInfo 1 ⟨8, 0, 9, 1⟩, .windowInfo 0 ⟨0, -1, 0, 1⟩] :=
  (consoleWindow_promised_iff ⟨3, 8, false⟩ 8 4 (by decide) _).mpr (by
    refine ⟨Or.inr (by decide), ?_⟩
    rintro _ _ ⟨⟩
    refine ⟨Or.inl (by decide), ?_⟩
    rintro _ _ ⟨⟩
    refine ⟨Or.inr (by decide), ?_⟩
    rintro _ _ ⟨⟩
    trivial)

/-- A window as wide as the buffer, from its second column on. -/
theorem shiftedWindow_not_promised :
    ¬ ∀ (g : ConsoleGlobals) (x y : ℕ), 1 ≤ x ∧ 1 ≤ y → ∀ ops : List Op,
      RunPromised g (newScreen g x y) ops := by
  intro all
  have promised := all ⟨3, 8, false⟩ 8 4 (by decide) [.windowInfo 1 ⟨1, 0, 9, 4⟩]
  obtain ⟨-, s', answer, stepped, -, inside⟩ := promised
  have fits := fits_of_inside stepped inside
  rw [StepFits, if_pos rfl] at fits
  rcases fits with refused | ⟨right, -⟩
  · exact absurd refused (by decide)
  · exact absurd right (by decide)

end Odin32.ConsoleWindow
