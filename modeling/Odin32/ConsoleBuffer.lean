import Odin32.Word
import Mathlib.Logic.Function.Basic
import Mathlib.Data.Int.Notation

/-! # The console screen buffer

A buffer is one block: a table of line pointers and behind it the rows of cells. A pointer
is known here by the row it points to. Calls leave a log of the cells they store to and the
table entries they write; a store outside of the screen hits something else and leaves the
cells of the buffer as they are. Updating the visible screen is left out. -/

set_option autoImplicit false

namespace Odin32.Console

open Word

/-- A value as a `SHORT`. -/
def short (n : ℤ) : ℤ := n.bmod 0x10000

structure Cell where
  char : ℕ
  attr : ℕ
deriving DecidableEq

abbrev Row := ℕ → Cell

def enableProcessedOutput : BitVec 32 := 1
def enableWrapAtEolOutput : BitVec 32 := 2

/-- What the calls use of `CONSOLEBUFFER`. -/
structure ConsoleBuffer where
  /-- `ppszLine` is not `NULL`. -/
  allocated : Bool
  /-- The row each entry of `ppszLine` points to. -/
  lines : ℕ → ℕ
  storage : ℕ → Row
  ulScrollLineOffset : ℕ
  sizeX : ℕ
  sizeY : ℕ
  cursorX : ℤ
  cursorY : ℤ
  dwConsoleMode : BitVec 32
  ucDefaultAttribute : ℕ

/-- What the calls use of `ICONSOLEGLOBALS`. -/
structure ConsoleGlobals where
  /-- `coordWindowSize.Y` -/
  windowY : ℕ
  ulTabSize : ℕ
  flVioConsole : Bool

inductive Access where
  /-- A store to a cell, by the indices used. -/
  | cell (line column : ℤ)
  /-- A write to an entry of the line table. -/
  | entry (line : ℕ)

/-- The buffer as `CreateFile` leaves it. -/
def ConsoleBuffer.created : ConsoleBuffer where
  allocated := false
  lines _ := 0
  storage _ _ := ⟨0, 0⟩
  ulScrollLineOffset := 0
  sizeX := 0
  sizeY := 0
  cursorX := 0
  cursorY := 0
  dwConsoleMode := enableProcessedOutput ||| enableWrapAtEolOutput
  ucDefaultAttribute := 0

/-- The double words of `iConsoleBufferFillLine`, two cells each. -/
def fillPairs (blank : Cell) : ℕ → Row → Row
  | 0, row => row
  | n + 1, row =>
    Function.update (Function.update (fillPairs blank n row) (2 * n) blank) (2 * n + 1) blank

def iConsoleBufferFillLine (blank : Cell) (row : Row) (ulSize : ℕ) : Row :=
  let filled := fillPairs blank (ulSize / 2) row
  if ulSize % 2 = 1 then Function.update filled (2 * (ulSize / 2)) blank else filled

namespace ConsoleBuffer

/-- A blank in the default attribute. -/
def blank (b : ConsoleBuffer) : Cell := ⟨0x20, b.ucDefaultAttribute⟩

def processed (b : ConsoleBuffer) : Bool := b.dwConsoleMode &&& enableProcessedOutput ≠ 0

def wraps (b : ConsoleBuffer) : Bool := b.dwConsoleMode &&& enableWrapAtEolOutput ≠ 0

/-- The rows after the fill of `count` lines from `line` on. -/
def fillLines (blank : Cell) (lines : ℕ → ℕ) (size : ℕ) : ℕ → ℕ → (ℕ → Row) → ℕ → Row
  | 0, _, storage => storage
  | count + 1, line, storage =>
    fillLines blank lines size count (line + 1)
      (Function.update storage (lines line)
        (iConsoleBufferFillLine blank (storage (lines line)) size))

def iConsoleBufferScrollUp (g : ConsoleGlobals) (b : ConsoleBuffer) (ulLines : ℕ) :
    ConsoleBuffer × List Access :=
  let offset := add32 b.ulScrollLineOffset ulLines % b.sizeY
  let scrolled := if ulLines < b.sizeY then g.windowY else 0
  let lines := fun line => if line < scrolled then (line + offset) % b.sizeY else b.lines line
  let ulLines := min ulLines b.sizeY
  let first := b.sizeY - ulLines
  ({ b with
      ulScrollLineOffset := offset
      lines := lines
      storage := fillLines b.blank lines b.sizeX ulLines first b.storage },
    (List.range scrolled).map .entry ++ (List.range ulLines).flatMap fun i =>
      (List.range b.sizeX).map fun column => .cell (first + i : ℕ) column)

/-- `*(ppszLine[line] + column * 2) = ucChar` -/
def poke (b : ConsoleBuffer) (line column : ℤ) (ucChar : ℕ) : ConsoleBuffer :=
  if 0 ≤ line ∧ line < b.sizeY ∧ 0 ≤ column ∧ column < b.sizeX then
    let row := b.lines line.toNat
    let cell := { b.storage row column.toNat with char := ucChar }
    { b with
      storage := Function.update b.storage row
        (Function.update (b.storage row) column.toNat cell) }
  else b

/-- Scroll one line up and take the cursor back to the last line. -/
def scrollBack (g : ConsoleGlobals) (b : ConsoleBuffer) : ConsoleBuffer × List Access :=
  let (b, stores) := iConsoleBufferScrollUp g b 1
  ({ b with cursorY := short (b.cursorY - 1) }, stores)

def backspace (b : ConsoleBuffer) : ConsoleBuffer × List Access :=
  if 0 < b.cursorX then
    let b := { b with cursorX := short (b.cursorX - 1) }
    (b.poke b.cursorY b.cursorX 0x20, [.cell b.cursorY b.cursorX])
  else if 0 < b.cursorY then
    let b := { b with cursorY := short (b.cursorY - 1), cursorX := short (b.sizeX - 1) }
    (b.poke b.cursorY b.cursorX 0x20, [.cell b.cursorY b.cursorX])
  else (b, [])

/-- The column after a tab, before it is taken into the line. -/
def tabStop (g : ConsoleGlobals) (b : ConsoleBuffer) : ℤ :=
  short (u32 (((b.cursorX % 0x100000000).toNat / g.ulTabSize + 1) * g.ulTabSize))

/-- A tab to a stop that may lie beyond the line. -/
def tabTo (g : ConsoleGlobals) (b : ConsoleBuffer) (stop : ℤ) : ConsoleBuffer × List Access :=
  if (b.sizeX : ℤ) ≤ stop then
    let b := { b with cursorX := stop % b.sizeX, cursorY := short (b.cursorY + 1) }
    if (b.sizeY : ℤ) ≤ b.cursorY ∧ b.wraps then scrollBack g b else (b, [])
  else ({ b with cursorX := stop }, [])

def tab (g : ConsoleGlobals) (b : ConsoleBuffer) : ConsoleBuffer × List Access :=
  b.tabTo g (b.tabStop g)

def lineFeed (g : ConsoleGlobals) (b : ConsoleBuffer) : ConsoleBuffer × List Access :=
  let b := { b with cursorY := short (b.cursorY + 1) }
  if (b.sizeY : ℤ) ≤ b.cursorY then scrollBack g b else (b, [])

/-- One column on, after a character. -/
def advance (g : ConsoleGlobals) (b : ConsoleBuffer) : ConsoleBuffer × List Access :=
  let b := { b with cursorX := short (b.cursorX + 1) }
  if (b.sizeX : ℤ) ≤ b.cursorX then
    let b := { b with cursorX := 0, cursorY := short (b.cursorY + 1) }
    if (b.sizeY : ℤ) ≤ b.cursorY then
      if b.wraps then scrollBack g b
      else ({ b with cursorX := short (b.sizeX - 1), cursorY := short (b.sizeY - 1) }, [])
    else (b, [])
  else (b, [])

def putChar (g : ConsoleGlobals) (b : ConsoleBuffer) (ucChar : ℕ) : ConsoleBuffer × List Access :=
  let store := Access.cell b.cursorY b.cursorX
  let (b, stores) := (b.poke b.cursorY b.cursorX ucChar).advance g
  (b, store :: stores)

/-- The body of the loop of `WriteFile`. -/
def writeByte (g : ConsoleGlobals) (b : ConsoleBuffer) (ucChar : ℕ) :
    ConsoleBuffer × List Access :=
  if b.processed ∧ ucChar < 32 then
    if ucChar = 8 then b.backspace
    else if ucChar = 9 then b.tab g
    else if ucChar = 13 then ({ b with cursorX := 0 }, [])
    else if ucChar = 10 then b.lineFeed g
    else (b, [])
  else b.putChar g ucChar

def writeBytes (g : ConsoleGlobals) : ConsoleBuffer → List ℕ → ConsoleBuffer × List Access
  | b, [] => (b, [])
  | b, ucChar :: bytes =>
    let (b, stores) := b.writeByte g ucChar
    let (b, more) := writeBytes g b bytes
    (b, stores ++ more)

def writeFile (g : ConsoleGlobals) (b : ConsoleBuffer) (bytes : List ℕ) :
    ConsoleBuffer × List Access :=
  if b.allocated then b.writeBytes g bytes else (b, [])

def setConsoleCursorPosition (b : ConsoleBuffer) (x y : ℤ) : ConsoleBuffer :=
  { b with cursorX := x, cursorY := y }

def setConsoleMode (b : ConsoleBuffer) (dwMode : BitVec 32) : ConsoleBuffer :=
  { b with dwConsoleMode := dwMode }

def setConsoleTextAttribute (b : ConsoleBuffer) (wAttr : ℕ) : ConsoleBuffer :=
  { b with ucDefaultAttribute := wAttr % 0x100 }

/-- `SetConsoleScreenBufferSize`, with what `malloc` gives and where `VioGetCurPos` finds the
cursor. -/
def setConsoleScreenBufferSize (g : ConsoleGlobals) (b : ConsoleBuffer) (x y : ℕ) (mem : Bool)
    (row column : ℕ) : ConsoleBuffer :=
  if y * (x * 2 + 4) = 0 then
    { b with allocated := false, sizeX := 0, sizeY := 0 }
  else if ¬ mem then b
  else
    let blanks := fillLines b.blank id x y 0 fun _ _ => ⟨0, 0⟩
    let storage := fun line column =>
      if b.allocated ∧ line < min b.sizeY y ∧ column < min b.sizeX x then
        b.storage (b.lines line) column
      else blanks line column
    { b with
      allocated := true
      lines := id
      storage := storage
      sizeX := x
      sizeY := y
      cursorX := if g.flVioConsole then short column else 0
      cursorY := if g.flVioConsole then short row else 0 }

end ConsoleBuffer

/-- A new buffer of `x` by `y` cells. -/
def newBuffer (g : ConsoleGlobals) (x y : ℕ) : ConsoleBuffer :=
  ConsoleBuffer.created.setConsoleScreenBufferSize g x y true 0 0

end Odin32.Console
