import Odin32.ConsoleCursor
import Odin32.ConsoleWindow

/-! # Rectangles of console cells

`ReadConsoleOutput` and `WriteConsoleOutput` move cells between a rectangle of the screen buffer
and a buffer of the caller. The four functions go the same way over the cells and differ in what
they do at one. A way is the list of the moves, each with the element of the caller's buffer and
the cell of the screen it touches. `char` is unsigned, and the flag for an update of the screen
is left out. -/

set_option autoImplicit false

namespace Odin32.ConsoleRectangles

open Console
open ConsoleWindow (SmallRect)

/-! ## The calls -/

structure CharInfo where
  /-- The union; `AsciiChar` is the low byte of `UnicodeChar`. -/
  char : ℕ
  attributes : ℕ

/-- The caller's buffer: its size and the cell to begin with. -/
structure Area where
  sizeX : Int16
  sizeY : Int16
  coordX : Int16
  coordY : Int16

/-- A `SMALL_RECT` with its fields as numbers. -/
structure Rect where
  left : ℤ
  top : ℤ
  right : ℤ
  bottom : ℤ
deriving DecidableEq

structure Move where
  element : ℤ
  line : ℕ
  column : ℕ

structure Plan where
  /-- The rectangle as it is stored back. -/
  rect : Rect
  returned : Bool
  moves : List Move

variable (b : ConsoleBuffer) (a : Area) (r : SmallRect)

/-- The rectangle in the screen buffer. -/
def clip : Rect where
  left := max r.left.toInt 0
  top := max r.top.toInt 0
  right := min r.right.toInt (b.sizeX - 1)
  bottom := min r.bottom.toInt (b.sizeY - 1)

/-- A difference as `ULONG`. -/
def unsigned (n : ℤ) : ℕ := (n % 0x100000000).toNat

def ulCX : ℕ :=
  min (unsigned (a.sizeX.toInt - a.coordX.toInt)) (unsigned ((clip b r).right - (clip b r).left))

def ulCY : ℕ :=
  min (unsigned (a.sizeY.toInt - a.coordY.toInt)) (unsigned ((clip b r).bottom - (clip b r).top))

def sizeofCharInfo : ℤ := 4

/-- The two loops. The offset of a row is added to a pointer to `CHAR_INFO`, so it counts
elements. -/
def moves : List Move :=
  (List.range (ulCY b a r + 1)).flatMap fun ulY : ℕ =>
    let pchi := sizeofCharInfo * a.coordX.toInt +
      sizeofCharInfo * (a.coordY.toInt + ulY) * a.sizeX.toInt
    (List.range (ulCX b a r + 1)).map fun ulX : ℕ =>
      ⟨pchi + ulX, (clip b r).top.toNat + ulY, (clip b r).left.toNat + ulX⟩

def plan : Plan :=
  if a.sizeX.toInt < a.coordX.toInt ∨ a.sizeY.toInt < a.coordY.toInt then ⟨clip b r, false, []⟩
  else
    ⟨{ clip b r with
        right := short ((clip b r).left + ulCX b a r)
        bottom := short ((clip b r).top + ulCY b a r) },
      true, moves b a r⟩

/-- `*(ppszLine[line] + column * 2)`, which is the character alone. -/
def wCell (line column : ℕ) : ℕ := (b.storage (b.lines line) column).char % 0x100

/-- A read that puts the cells into the caller's elements with `set`. -/
def readConsoleOutput (set : CharInfo → ℕ → CharInfo) (pchiDestBuffer : ℤ → CharInfo) :
    (ℤ → CharInfo) × Plan :=
  ((plan b a r).moves.foldl (fun out m =>
      Function.update out m.element (set (out m.element) (wCell b m.line m.column)))
    pchiDestBuffer, plan b a r)

def readConsoleOutputA (pchiDestBuffer : ℤ → CharInfo) : (ℤ → CharInfo) × Plan :=
  readConsoleOutput b a r
    (fun pchi wCell => ⟨pchi.char / 0x100 * 0x100 + wCell % 0x100, wCell / 0x100⟩) pchiDestBuffer

def readConsoleOutputW (pchiDestBuffer : ℤ → CharInfo) : (ℤ → CharInfo) × Plan :=
  readConsoleOutput b a r (fun _ wCell => ⟨wCell % 0x100, wCell / 0x100⟩) pchiDestBuffer

/-- `*pszTarget++ = char; *pszTarget++ = attr` -/
def put (b : ConsoleBuffer) (line column : ℕ) (cell : Cell) : ConsoleBuffer :=
  { b with
    storage := Function.update b.storage (b.lines line)
      (Function.update (b.storage (b.lines line)) column cell) }

/-- A write that takes the cells from the caller's elements with `get`. -/
def writeConsoleOutput (get : CharInfo → Cell) (pchiSrcBuffer : ℤ → CharInfo) :
    ConsoleBuffer × Plan :=
  ((plan b a r).moves.foldl (fun b m => put b m.line m.column (get (pchiSrcBuffer m.element))) b,
    plan b a r)

def writeConsoleOutputA (pchiSrcBuffer : ℤ → CharInfo) : ConsoleBuffer × Plan :=
  writeConsoleOutput b a r
    (fun pchi => ⟨pchi.char % 0x100 % 0x100, pchi.attributes % 0x100⟩) pchiSrcBuffer

def writeConsoleOutputW (pchiSrcBuffer : ℤ → CharInfo) : ConsoleBuffer × Plan :=
  writeConsoleOutput b a r
    (fun pchi => ⟨pchi.char % 0x100, pchi.attributes % 0x100⟩) pchiSrcBuffer

def write (wide : Bool) (pchiSrcBuffer : ℤ → CharInfo) : ConsoleBuffer × Plan :=
  if wide then writeConsoleOutputW b a r pchiSrcBuffer
  else writeConsoleOutputA b a r pchiSrcBuffer

def read (wide : Bool) (pchiDestBuffer : ℤ → CharInfo) : (ℤ → CharInfo) × Plan :=
  if wide then readConsoleOutputW b a r pchiDestBuffer
  else readConsoleOutputA b a r pchiDestBuffer

/-! ## What they are for -/

/-- The moves of the part of the rectangle that is in the screen buffer and, from the cell to
begin with on, in the caller's buffer. -/
def Meant (m : Move) : Prop :=
  ∃ i j : ℕ, ((clip b r).left + i ≤ (clip b r).right ∧ (clip b r).top + j ≤ (clip b r).bottom ∧
      a.coordX.toInt + i < a.sizeX.toInt ∧ a.coordY.toInt + j < a.sizeY.toInt) ∧
    m = ⟨(a.coordY.toInt + j) * a.sizeX.toInt + (a.coordX.toInt + i),
      (clip b r).top.toNat + j, (clip b r).left.toNat + i⟩

/-- The calls succeed, move this part and store it back. -/
structure PlanRight (p : Plan) : Prop where
  returned : p.returned = true
  moves : ∀ m, m ∈ p.moves ↔ Meant b a r m
  rect : p.rect =
    { clip b r with
      right := min (clip b r).right ((clip b r).left + (a.sizeX.toInt - a.coordX.toInt) - 1)
      bottom := min (clip b r).bottom ((clip b r).top + (a.sizeY.toInt - a.coordY.toInt) - 1) }

/-- What the caller sees in an element. -/
def seen (wide : Bool) (pchi : CharInfo) : ℕ × ℕ :=
  (if wide then pchi.char else pchi.char % 0x100, pchi.attributes)

structure WriteRight (wide : Bool) (buffer : ℤ → CharInfo) : Prop where
  plan : PlanRight b a r (write b a r wide buffer).2
  cells : ∀ m, Meant b a r m →
    (write b a r wide buffer).1.storage (b.lines m.line) m.column =
      ⟨(buffer m.element).char % 0x100, (buffer m.element).attributes % 0x100⟩
  elsewhere : ∀ row column, (∀ m, Meant b a r m → (b.lines m.line, m.column) ≠ (row, column)) →
    (write b a r wide buffer).1.storage row column = b.storage row column
  frame : (write b a r wide buffer).1 = { b with storage := (write b a r wide buffer).1.storage }

structure ReadRight (wide : Bool) (buffer : ℤ → CharInfo) : Prop where
  plan : PlanRight b a r (read b a r wide buffer).2
  cells : ∀ m, Meant b a r m → seen wide ((read b a r wide buffer).1 m.element) =
    ((b.storage (b.lines m.line) m.column).char % 0x100,
      (b.storage (b.lines m.line) m.column).attr % 0x100)
  elsewhere : ∀ e, (∀ m, Meant b a r m → m.element ≠ e) →
    (read b a r wide buffer).1 e = buffer e

inductive Call where
  | write
  | read
  | writeRead

/-- What is promised of a write, a read, or a read right after a write. -/
def Promised (wide : Bool) (buffer : ℤ → CharInfo) : Call → Prop
  | .write => WriteRight b a r wide buffer
  | .read => ReadRight b a r wide buffer
  | .writeRead => WriteRight b a r wide buffer ∧ ∀ out : ℤ → CharInfo,
      PlanRight b a r (read (write b a r wide buffer).1 a r wide out).2 ∧
      ∀ m, Meant b a r m →
        seen wide ((read (write b a r wide buffer).1 a r wide out).1 m.element) =
          seen wide (buffer m.element)

/-- The transfer starts with the first element and is a part of one line, which ends before the
line of the caller does. -/
structure OneRow : Prop where
  coordX : a.coordX.toInt = 0
  coordY : a.coordY.toInt = 0
  ordered : (clip b r).left ≤ (clip b r).right
  line : (clip b r).top = (clip b r).bottom
  narrow : (clip b r).right - (clip b r).left < a.sizeX.toInt

/-- What is read has no attributes. -/
def Fits (wide : Bool) (buffer : ℤ → CharInfo) (call : Call) : Prop :=
  OneRow b a r ∧
  match call with
  | .write => True
  | .read => ∀ i : ℕ, (clip b r).left + i ≤ (clip b r).right →
      (b.storage (b.lines (clip b r).top.toNat) ((clip b r).left.toNat + i)).attr % 0x100 = 0
  | .writeRead => ∀ i : ℕ, (clip b r).left + i ≤ (clip b r).right →
      (buffer i).attributes = 0 ∧ (wide = true → (buffer i).char < 0x100)

/-! ## The moves -/

/-- The cell to begin with is in the caller's buffer. -/
structure Area.Inside : Prop where
  coordX : 0 ≤ a.coordX.toInt ∧ a.coordX.toInt < a.sizeX.toInt
  coordY : 0 ≤ a.coordY.toInt ∧ a.coordY.toInt < a.sizeY.toInt

variable {b a r}

theorem unsigned_eq {n : ℤ} (low : 0 ≤ n) (high : n < 0x100000000) : (unsigned n : ℤ) = n := by
  rw [unsigned, Int.emod_eq_of_lt low high]
  exact Int.toNat_of_nonneg low

theorem mem_moves {m : Move} : m ∈ moves b a r ↔ ∃ ulY ulX : ℕ, ulY ≤ ulCY b a r ∧
    ulX ≤ ulCX b a r ∧ m = ⟨sizeofCharInfo * a.coordX.toInt +
      sizeofCharInfo * (a.coordY.toInt + ulY) * a.sizeX.toInt + ulX,
      (clip b r).top.toNat + ulY, (clip b r).left.toNat + ulX⟩ := by
  simp only [moves, List.mem_flatMap, List.mem_map, List.mem_range, Nat.lt_succ_iff]
  constructor
  · rintro ⟨ulY, leY, ulX, leX, rfl⟩
    exact ⟨ulY, ulX, leY, leX, rfl⟩
  · rintro ⟨ulY, ulX, leY, leX, rfl⟩
    exact ⟨ulY, leY, ulX, leX, rfl⟩

theorem left_nonneg : 0 ≤ (clip b r).left := Int.le_max_right _ _

theorem top_nonneg : 0 ≤ (clip b r).top := Int.le_max_right _ _

theorem right_small : (clip b r).right < 2 ^ 15 :=
  Int.lt_of_le_of_lt (Int.min_le_left _ _) r.right.toInt_lt

theorem bottom_small : (clip b r).bottom < 2 ^ 15 :=
  Int.lt_of_le_of_lt (Int.min_le_left _ _) r.bottom.toInt_lt

theorem ulCX_eq (inside : a.Inside) (ordered : (clip b r).left ≤ (clip b r).right) :
    (ulCX b a r : ℤ) =
      min (a.sizeX.toInt - a.coordX.toInt) ((clip b r).right - (clip b r).left) := by
  have size := a.sizeX.toInt_lt
  have start := inside.coordX
  have left := left_nonneg (b := b) (r := r)
  have right := right_small (b := b) (r := r)
  have room := unsigned_eq (n := a.sizeX.toInt - a.coordX.toInt) (by omega) (by omega)
  have wanted := unsigned_eq (n := (clip b r).right - (clip b r).left) (by omega) (by omega)
  rw [ulCX]
  omega

theorem ulCY_eq (inside : a.Inside) (ordered : (clip b r).top ≤ (clip b r).bottom) :
    (ulCY b a r : ℤ) =
      min (a.sizeY.toInt - a.coordY.toInt) ((clip b r).bottom - (clip b r).top) := by
  have size := a.sizeY.toInt_lt
  have start := inside.coordY
  have top := top_nonneg (b := b) (r := r)
  have bottom := bottom_small (b := b) (r := r)
  have room := unsigned_eq (n := a.sizeY.toInt - a.coordY.toInt) (by omega) (by omega)
  have wanted := unsigned_eq (n := (clip b r).bottom - (clip b r).top) (by omega) (by omega)
  rw [ulCY]
  omega

/-- The first elements of the first row and of the second one, and the last one of the first
row, are the ones meant only in a transfer of one row from the first element on. -/
theorem oneRow_of_moves (inside : a.Inside) (right : ∀ m, m ∈ moves b a r → Meant b a r m) :
    OneRow b a r := by
  have width := inside.coordX
  have height := inside.coordY
  have left := left_nonneg (b := b) (r := r)
  have top := top_nonneg (b := b) (r := r)
  -- where the move of a row and a column comes from
  have goes : ∀ ulY ulX : ℕ, ulY ≤ ulCY b a r → ulX ≤ ulCX b a r →
      ((clip b r).left + ulX ≤ (clip b r).right ∧ (clip b r).top + ulY ≤ (clip b r).bottom ∧
        a.coordX.toInt + ulX < a.sizeX.toInt ∧ a.coordY.toInt + ulY < a.sizeY.toInt) ∧
      3 * (a.coordX.toInt + (a.coordY.toInt + ulY) * a.sizeX.toInt) = 0 := by
    intro ulY ulX leY leX
    obtain ⟨i, j, bounds, eq⟩ := right _ (mem_moves.mpr ⟨ulY, ulX, leY, leX, rfl⟩)
    obtain ⟨element, line, column⟩ := Move.mk.inj eq
    obtain rfl : ulY = j := Nat.add_left_cancel line
    obtain rfl : ulX = i := Nat.add_left_cancel column
    refine ⟨bounds, ?_⟩
    have four : sizeofCharInfo * (a.coordY.toInt + ulY) * a.sizeX.toInt =
        4 * ((a.coordY.toInt + ulY) * a.sizeX.toInt) := Int.mul_assoc ..
    rw [four, sizeofCharInfo] at element
    omega
  obtain ⟨⟨ordered, below, -, -⟩, start⟩ := goes 0 0 (Nat.zero_le _) (Nat.zero_le _)
  have rows : 0 ≤ (a.coordY.toInt + (0 : ℕ)) * a.sizeX.toInt :=
    Int.mul_nonneg (by omega) (by omega)
  have zero : (a.coordY.toInt + (0 : ℕ)) * a.sizeX.toInt = 0 := by omega
  have coordY : a.coordY.toInt = 0 := by
    rcases Int.mul_eq_zero.mp zero with none | none <;> omega
  have columns := ulCX_eq inside (show (clip b r).left ≤ (clip b r).right by omega)
  have lines := ulCY_eq inside (show (clip b r).top ≤ (clip b r).bottom by omega)
  obtain ⟨⟨-, -, lastX, -⟩, -⟩ := goes 0 (ulCX b a r) (Nat.zero_le _) (Nat.le_refl _)
  have single : ulCY b a r = 0 := by
    by_contra some_row
    obtain ⟨-, second⟩ := goes 1 0 (Nat.one_le_iff_ne_zero.mpr some_row) (Nat.zero_le _)
    rw [coordY] at second
    omega
  obtain ⟨⟨-, -, -, lastY⟩, -⟩ := goes (ulCY b a r) 0 (Nat.le_refl _) (Nat.zero_le _)
  exact ⟨by omega, coordY, by omega, by omega, by omega⟩

namespace OneRow

/-- The number of cells behind the first one. -/
def last (b : ConsoleBuffer) (r : SmallRect) : ℕ := ((clip b r).right - (clip b r).left).toNat

variable (one : OneRow b a r)
include one

theorem ulCX_eq_last (inside : a.Inside) : ulCX b a r = last b r := by
  have columns := ulCX_eq inside one.ordered
  have narrow := one.narrow
  have start := one.coordX
  have ordered := one.ordered
  rw [last]
  omega

theorem ulCY_eq_zero (inside : a.Inside) : ulCY b a r = 0 := by
  have lines := ulCY_eq inside (Int.le_of_eq one.line)
  have start := one.coordY
  have height := inside.coordY
  have line := one.line
  omega

theorem moves_eq (inside : a.Inside) : moves b a r =
    (List.range (last b r + 1)).map fun k : ℕ =>
      ⟨k, (clip b r).top.toNat, (clip b r).left.toNat + k⟩ := by
  rw [moves, one.ulCX_eq_last inside, one.ulCY_eq_zero inside, one.coordX, one.coordY]
  simp

theorem meant_iff (inside : a.Inside) {m : Move} : Meant b a r m ↔
    ∃ k : ℕ, k ≤ last b r ∧ m = ⟨k, (clip b r).top.toNat, (clip b r).left.toNat + k⟩ := by
  have narrow := one.narrow
  have coordX := one.coordX
  have coordY := one.coordY
  have line := one.line
  have ordered := one.ordered
  have height := inside.coordY
  rw [Meant, last]
  constructor
  · rintro ⟨i, j, bounds, rfl⟩
    obtain rfl : j = 0 := by omega
    refine ⟨i, by omega, ?_⟩
    rw [coordX, coordY]
    simp
  · rintro ⟨k, le, rfl⟩
    refine ⟨k, 0, ⟨by omega, by omega, by omega, by omega⟩, ?_⟩
    rw [coordX, coordY]
    simp

theorem planRight (inside : a.Inside) : PlanRight b a r (plan b a r) := by
  have width := inside.coordX
  have height := inside.coordY
  have columns := one.ulCX_eq_last inside
  have lines := one.ulCY_eq_zero inside
  have left := left_nonneg (b := b) (r := r)
  have top := top_nonneg (b := b) (r := r)
  have right := right_small (b := b) (r := r)
  have bottom := bottom_small (b := b) (r := r)
  have ordered := one.ordered
  have line := one.line
  have narrow := one.narrow
  have coordX := one.coordX
  have coordY := one.coordY
  have eq : plan b a r = ⟨{ clip b r with
      right := short ((clip b r).left + ulCX b a r)
      bottom := short ((clip b r).top + ulCY b a r) }, true, moves b a r⟩ :=
    if_neg (by omega)
  rw [eq]
  refine ⟨rfl, fun m => ?_, ?_⟩
  · rw [one.meant_iff inside, one.moves_eq inside, List.mem_map]
    constructor
    · rintro ⟨k, mem, rfl⟩
      exact ⟨k, Nat.lt_succ_iff.mp (List.mem_range.mp mem), rfl⟩
    · rintro ⟨k, le, rfl⟩
      exact ⟨k, List.mem_range.mpr (Nat.lt_succ_of_le le), rfl⟩
  · have last' : ((last b r : ℕ) : ℤ) = (clip b r).right - (clip b r).left := by
      rw [last]
      omega
    rw [columns, lines, last', short_eq (by omega) (by omega), short_eq (by omega) (by omega)]
    have right' : (clip b r).left + ((clip b r).right - (clip b r).left) =
        min (clip b r).right ((clip b r).left + (a.sizeX.toInt - a.coordX.toInt) - 1) := by omega
    have bottom' : (clip b r).top + (0 : ℕ) =
        min (clip b r).bottom ((clip b r).top + (a.sizeY.toInt - a.coordY.toInt) - 1) := by omega
    rw [right', bottom']

end OneRow

/-! ## The cells -/

theorem plan_moves (inside : a.Inside) : (plan b a r).moves = moves b a r := by
  have width := inside.coordX
  have height := inside.coordY
  have eq : plan b a r = ⟨{ clip b r with
      right := short ((clip b r).left + ulCX b a r)
      bottom := short ((clip b r).top + ulCY b a r) }, true, moves b a r⟩ :=
    if_neg (by omega)
  rw [eq]

/-- A row with `n` cells put from `column` on. -/
def putRow (row : ℕ → Cell) (column n : ℕ) (cells : ℕ → Cell) : ℕ → Cell := fun x =>
  if column ≤ x ∧ x < column + n then cells (x - column) else row x

theorem putRow_succ (row : ℕ → Cell) (column n : ℕ) (cells : ℕ → Cell) :
    Function.update (putRow row column n cells) (column + n) (cells n) =
      putRow row column (n + 1) cells := by
  ext1 x
  simp only [Function.update_apply, putRow]
  by_cases last : x = column + n
  · rw [if_pos last, if_pos (by omega), last, Nat.add_sub_cancel_left]
  · rw [if_neg last]
    have same : (column ≤ x ∧ x < column + n) ↔ (column ≤ x ∧ x < column + (n + 1)) := by omega
    simp only [same]

theorem foldl_put (b : ConsoleBuffer) (line column : ℕ) (cells : ℕ → Cell) (n : ℕ) :
    (List.range n).foldl (fun b k => put b line (column + k) (cells k)) b =
      { b with
        storage := Function.update b.storage (b.lines line)
          (putRow (b.storage (b.lines line)) column n cells) } := by
  induction n with
  | zero =>
    have none : putRow (b.storage (b.lines line)) column 0 cells = b.storage (b.lines line) := by
      ext1 x
      exact if_neg (by omega)
    rw [none, Function.update_eq_self]
    rfl
  | succ n ih =>
    rw [List.range_succ, List.foldl_append, ih]
    simp only [List.foldl_cons, List.foldl_nil, put, Function.update_self, Function.update_idem,
      putRow_succ]

/-- The elements with the first `n` of them set. -/
def setFirst (set : CharInfo → ℕ → CharInfo) (out : ℤ → CharInfo) (cells : ℕ → ℕ) (n : ℕ) :
    ℤ → CharInfo := fun e =>
  if 0 ≤ e ∧ e < n then set (out e) (cells e.toNat) else out e

theorem foldl_set (set : CharInfo → ℕ → CharInfo) (out : ℤ → CharInfo) (cells : ℕ → ℕ) (n : ℕ) :
    (List.range n).foldl (fun out (k : ℕ) =>
      Function.update out (k : ℤ) (set (out k) (cells k))) out = setFirst set out cells n := by
  induction n with
  | zero =>
    ext1 e
    exact (if_neg (by omega)).symm
  | succ n ih =>
    rw [List.range_succ, List.foldl_append, ih]
    simp only [List.foldl_cons, List.foldl_nil]
    ext1 e
    simp only [Function.update_apply, setFirst]
    by_cases last : e = n
    · rw [if_pos last, if_neg (by omega), if_pos (by omega), last, Int.toNat_natCast]
    · rw [if_neg last]
      have same : (0 ≤ e ∧ e < (n : ℤ)) ↔ (0 ≤ e ∧ e < ((n + 1 : ℕ) : ℤ)) := by omega
      simp only [same]

/-- What a write puts into a cell. -/
def given (pchi : CharInfo) : Cell := ⟨pchi.char % 0x100, pchi.attributes % 0x100⟩

/-- What a read puts into an element. -/
def taken (wide : Bool) (pchi : CharInfo) (wCell : ℕ) : CharInfo :=
  ⟨if wide then wCell % 0x100 else pchi.char / 0x100 * 0x100 + wCell % 0x100, wCell / 0x100⟩

theorem write_eq (b : ConsoleBuffer) (a : Area) (r : SmallRect) (wide : Bool)
    (buffer : ℤ → CharInfo) :
    write b a r wide buffer = writeConsoleOutput b a r given buffer := by
  cases wide with
  | true => rfl
  | false =>
    have same : (fun pchi : CharInfo =>
        (⟨pchi.char % 0x100 % 0x100, pchi.attributes % 0x100⟩ : Cell)) = given := by
      ext1 pchi
      rw [Nat.mod_mod, given]
    show writeConsoleOutputA b a r buffer = _
    rw [writeConsoleOutputA, same]

theorem read_eq (b : ConsoleBuffer) (a : Area) (r : SmallRect) (wide : Bool)
    (out : ℤ → CharInfo) :
    read b a r wide out = readConsoleOutput b a r (taken wide) out := by
  cases wide with
  | true => rfl
  | false => rfl

@[simp] theorem write_snd (b : ConsoleBuffer) (a : Area) (r : SmallRect) (wide : Bool)
    (buffer : ℤ → CharInfo) : (write b a r wide buffer).2 = plan b a r := by
  rw [write_eq]
  rfl

@[simp] theorem read_snd (b : ConsoleBuffer) (a : Area) (r : SmallRect) (wide : Bool)
    (out : ℤ → CharInfo) : (read b a r wide out).2 = plan b a r := by
  rw [read_eq]
  rfl

theorem seen_taken (wide : Bool) (pchi : CharInfo) {wCell : ℕ} (char : wCell < 0x100) :
    seen wide (taken wide pchi wCell) = (wCell, 0) := by
  have none : wCell / 0x100 = 0 := Nat.div_eq_of_lt char
  have low : wCell % 0x100 = wCell := Nat.mod_eq_of_lt char
  cases wide with
  | true => simp [seen, taken, none, low]
  | false => simp [seen, taken, none, low]

namespace OneRow

variable (one : OneRow b a r)
include one

theorem write_fst (inside : a.Inside) (wide : Bool) (buffer : ℤ → CharInfo) :
    (write b a r wide buffer).1 = { b with
      storage := Function.update b.storage (b.lines (clip b r).top.toNat)
        (putRow (b.storage (b.lines (clip b r).top.toNat)) (clip b r).left.toNat (last b r + 1)
          fun k => given (buffer k)) } := by
  rw [write_eq]
  show (plan b a r).moves.foldl (fun b m => put b m.line m.column (given (buffer m.element))) b = _
  rw [plan_moves inside, one.moves_eq inside, List.foldl_map]
  exact foldl_put b _ _ (fun k => given (buffer k)) _

theorem read_fst (inside : a.Inside) (wide : Bool) (out : ℤ → CharInfo) :
    (read b a r wide out).1 = setFirst (taken wide) out
      (fun k => wCell b (clip b r).top.toNat ((clip b r).left.toNat + k)) (last b r + 1) := by
  rw [read_eq]
  show (plan b a r).moves.foldl (fun out m =>
    Function.update out m.element (taken wide (out m.element) (wCell b m.line m.column))) out = _
  rw [plan_moves inside, one.moves_eq inside, List.foldl_map]
  exact foldl_set (taken wide) out _ _

theorem write_cell (inside : a.Inside) (wide : Bool) (buffer : ℤ → CharInfo) {k : ℕ}
    (le : k ≤ last b r) :
    (write b a r wide buffer).1.storage (b.lines (clip b r).top.toNat)
      ((clip b r).left.toNat + k) = given (buffer k) := by
  rw [one.write_fst inside]
  simp only [Function.update_self, putRow]
  rw [if_pos (by omega), Nat.add_sub_cancel_left]

theorem read_cell (inside : a.Inside) (wide : Bool) (out : ℤ → CharInfo) {k : ℕ}
    (le : k ≤ last b r) :
    seen wide ((read b a r wide out).1 k) =
      (wCell b (clip b r).top.toNat ((clip b r).left.toNat + k), 0) := by
  rw [one.read_fst inside, setFirst, if_pos (by omega), Int.toNat_natCast]
  exact seen_taken wide _ (Nat.mod_lt _ (by decide))

theorem writeRight (inside : a.Inside) (wide : Bool) (buffer : ℤ → CharInfo) :
    WriteRight b a r wide buffer where
  plan := by
    rw [write_snd]
    exact one.planRight inside
  cells := by
    intro m meant
    obtain ⟨k, le, rfl⟩ := (one.meant_iff inside).mp meant
    exact one.write_cell inside wide buffer le
  elsewhere := by
    intro row column away
    rw [one.write_fst inside]
    simp only [Function.update_apply]
    by_cases here : row = b.lines (clip b r).top.toNat
    · rw [if_pos here, putRow, here]
      refine if_neg fun bounds => ?_
      refine away _ ((one.meant_iff inside).mpr
        ⟨column - (clip b r).left.toNat, by omega, rfl⟩) ?_
      rw [here, Nat.add_sub_cancel' bounds.1]
    · rw [if_neg here]
  frame := by rw [one.write_fst inside]

theorem readRight_iff (inside : a.Inside) (wide : Bool) (out : ℤ → CharInfo) :
    ReadRight b a r wide out ↔ ∀ k ≤ last b r,
      (b.storage (b.lines (clip b r).top.toNat) ((clip b r).left.toNat + k)).attr % 0x100 = 0 := by
  constructor
  · intro right k le
    have cell := right.cells _ ((one.meant_iff inside).mpr ⟨k, le, rfl⟩)
    rw [one.read_cell inside wide out le] at cell
    exact (congrArg Prod.snd cell).symm
  · intro plain
    refine ⟨?_, fun m meant => ?_, fun e away => ?_⟩
    · rw [read_snd]
      exact one.planRight inside
    · obtain ⟨k, le, rfl⟩ := (one.meant_iff inside).mp meant
      rw [one.read_cell inside wide out le, plain k le]
      rfl
    · rw [one.read_fst inside, setFirst]
      refine if_neg fun bounds => ?_
      exact away _ ((one.meant_iff inside).mpr ⟨e.toNat, by omega, rfl⟩)
        (Int.toNat_of_nonneg bounds.1)

theorem readBack (inside : a.Inside) (wide : Bool) (buffer out : ℤ → CharInfo) {k : ℕ}
    (le : k ≤ last b r) :
    seen wide ((read (write b a r wide buffer).1 a r wide out).1 k) =
      ((buffer k).char % 0x100, 0) := by
  have cell := one.write_cell inside wide buffer le
  generalize eq : write b a r wide buffer = result at cell
  obtain ⟨after, way⟩ := result
  have frame : after = { b with storage := after.storage } := by
    have frame := (one.writeRight inside wide buffer).frame
    rwa [eq] at frame
  have again : OneRow after a r := by
    rw [frame]
    exact ⟨one.coordX, one.coordY, one.ordered, one.line, one.narrow⟩
  have size : clip after r = clip b r := by
    rw [frame]
    rfl
  have lines : after.lines = b.lines := by rw [frame]
  have read := again.read_cell inside wide out (k := k) (by rwa [last, size])
  rw [size, wCell, lines, cell, given, Nat.mod_mod] at read
  exact read

theorem plan_readBack (inside : a.Inside) (wide : Bool) (buffer out : ℤ → CharInfo) :
    PlanRight b a r (read (write b a r wide buffer).1 a r wide out).2 := by
  have same : plan (write b a r wide buffer).1 a r = plan b a r := by
    rw [(one.writeRight inside wide buffer).frame]
    rfl
  rw [read_snd, same]
  exact one.planRight inside

end OneRow

/-! ## The calls -/

theorem oneRow_of_planRight (inside : a.Inside) (right : PlanRight b a r (plan b a r)) :
    OneRow b a r := by
  refine oneRow_of_moves inside fun m mem => (right.moves m).mp ?_
  rwa [plan_moves inside]

theorem oneRow_of_promised (inside : a.Inside) {wide : Bool} {buffer : ℤ → CharInfo} {call : Call}
    (promised : Promised b a r wide buffer call) : OneRow b a r := by
  have right : PlanRight b a r (plan b a r) := by
    cases call with
    | write =>
      rw [← write_snd b a r wide buffer]
      exact WriteRight.plan promised
    | read =>
      rw [← read_snd b a r wide buffer]
      exact ReadRight.plan promised
    | writeRead =>
      rw [← write_snd b a r wide buffer]
      exact WriteRight.plan promised.1
  exact oneRow_of_planRight inside right

theorem seen_eq_iff (wide : Bool) (pchi : CharInfo) :
    (pchi.char % 0x100, 0) = seen wide pchi ↔
      pchi.attributes = 0 ∧ (wide = true → pchi.char < 0x100) := by
  rw [seen, Prod.mk.injEq]
  cases wide with
  | true =>
    rw [if_pos rfl]
    constructor
    · rintro ⟨char, attributes⟩
      exact ⟨attributes.symm, fun _ => by omega⟩
    · rintro ⟨attributes, char⟩
      exact ⟨Nat.mod_eq_of_lt (char rfl), attributes.symm⟩
  | false =>
    rw [if_neg Bool.false_ne_true]
    constructor
    · rintro ⟨-, attributes⟩
      exact ⟨attributes.symm, fun wide => absurd wide Bool.false_ne_true⟩
    · rintro ⟨attributes, -⟩
      exact ⟨rfl, attributes.symm⟩

theorem OneRow.le_last_iff (one : OneRow b a r) (k : ℕ) :
    k ≤ OneRow.last b r ↔ (clip b r).left + k ≤ (clip b r).right := by
  have ordered := one.ordered
  rw [OneRow.last]
  omega

/-- An empty screen of four lines. -/
def fourLines : ConsoleBuffer :=
  { ConsoleBuffer.created with allocated := true, lines := id, sizeX := 8, sizeY := 4 }

end Odin32.ConsoleRectangles
