import Odin32.ConsoleBuffer
import Mathlib.Tactic.Common

/-! # The cursor and the screen

Every character routine keeps the cursor on the screen, with two exceptions: a tab that
leaves the last line stays below it when lines are not wrapped, and a tab stop beyond the
range of a `SHORT` comes out negative. The application can place the cursor anywhere, and in
a text mode session a resize takes it from the session's screen. -/

set_option autoImplicit false

namespace Odin32.Console

open Word ConsoleBuffer

/-- The cursor is on a screen whose size fits a `COORD`. -/
structure ConsoleBuffer.Inside (b : ConsoleBuffer) : Prop where
  sizeX : b.sizeX ≤ 32767
  sizeY : b.sizeY ≤ 32767
  left : 0 ≤ b.cursorX
  right : b.cursorX < b.sizeX
  top : 0 ≤ b.cursorY
  bottom : b.cursorY < b.sizeY

/-- A store to a cell uses a line and a column of the screen. -/
def Access.OnScreen (sizeX sizeY : ℕ) : Access → Prop
  | .cell line column => 0 ≤ line ∧ line < sizeY ∧ 0 ≤ column ∧ column < sizeX
  | .entry _ => True

def OnScreen (b : ConsoleBuffer) (accesses : List Access) : Prop :=
  ∀ access ∈ accesses, access.OnScreen b.sizeX b.sizeY

/-- The calls of an application on a screen buffer. -/
inductive Call where
  | writeFile (bytes : List ℕ)
  | setConsoleCursorPosition (x y : ℤ)
  | setConsoleMode (dwMode : BitVec 32)
  | setConsoleTextAttribute (wAttr : ℕ)
  | setConsoleScreenBufferSize (x y : ℕ) (mem : Bool) (row column : ℕ)

def call (g : ConsoleGlobals) (b : ConsoleBuffer) : Call → ConsoleBuffer × List Access
  | .writeFile bytes => b.writeFile g bytes
  | .setConsoleCursorPosition x y => (b.setConsoleCursorPosition x y, [])
  | .setConsoleMode dwMode => (b.setConsoleMode dwMode, [])
  | .setConsoleTextAttribute wAttr => (b.setConsoleTextAttribute wAttr, [])
  | .setConsoleScreenBufferSize x y mem row column =>
    (b.setConsoleScreenBufferSize g x y mem row column, [])

/-- A size is at least one by one and fits a `COORD`. -/
def Call.Sized : Call → Prop
  | .setConsoleScreenBufferSize x y _ _ _ => 1 ≤ x ∧ x ≤ 32767 ∧ 1 ≤ y ∧ y ≤ 32767
  | _ => True

/-- After each call the cursor is on the screen, and its stores were. -/
def RunInside (g : ConsoleGlobals) : ConsoleBuffer → List Call → Prop
  | _, [] => True
  | b, c :: calls => (call g b c).1.Inside ∧ (∀ bytes, c = .writeFile bytes →
      OnScreen b (call g b c).2) ∧ RunInside g (call g b c).1 calls

/-- A tab whose stop fits a `SHORT` and that does not leave the last line without wrapping. -/
def TabFits (g : ConsoleGlobals) (b : ConsoleBuffer) : Prop :=
  0 ≤ b.tabStop g ∧ (b.sizeX ≤ b.tabStop g → b.cursorY + 1 < b.sizeY ∨ b.wraps = true)

def BytesFit (g : ConsoleGlobals) : ConsoleBuffer → List ℕ → Prop
  | _, [] => True
  | b, ucChar :: bytes => (b.processed = true → ucChar = 9 → TabFits g b) ∧
      BytesFit g (b.writeByte g ucChar).1 bytes

def CallFits (g : ConsoleGlobals) (b : ConsoleBuffer) : Call → Prop
  | .writeFile bytes => b.allocated = true → BytesFit g b bytes
  | .setConsoleCursorPosition x y => 0 ≤ x ∧ x < b.sizeX ∧ 0 ≤ y ∧ y < b.sizeY
  | .setConsoleScreenBufferSize x y mem row column =>
    g.flVioConsole = true → mem = true → row < y ∧ column < x
  | _ => True

def CallsFit (g : ConsoleGlobals) : ConsoleBuffer → List Call → Prop
  | _, [] => True
  | b, c :: calls => CallFits g b c ∧ CallsFit g (call g b c).1 calls

theorem short_eq {n : ℤ} (low : -32768 ≤ n) (high : n ≤ 32767) : short n = n := by
  unfold short
  rw [Int.bmod_def]
  split <;> omega

section Bytes

variable {g : ConsoleGlobals} {b : ConsoleBuffer}

theorem poke_rest (line column : ℤ) (ucChar : ℕ) :
    (b.poke line column ucChar).sizeX = b.sizeX ∧ (b.poke line column ucChar).sizeY = b.sizeY ∧
    (b.poke line column ucChar).cursorX = b.cursorX ∧
    (b.poke line column ucChar).cursorY = b.cursorY ∧
    (b.poke line column ucChar).dwConsoleMode = b.dwConsoleMode := by
  unfold poke
  split <;> exact ⟨rfl, rfl, rfl, rfl, rfl⟩

theorem scrollUp_onScreen (n : ℕ) : OnScreen b (iConsoleBufferScrollUp g b n).2 := by
  intro access mem
  rcases List.mem_append.mp mem with entry | cell
  · obtain ⟨line, -, rfl⟩ := List.mem_map.mp entry
    trivial
  · obtain ⟨i, below, inLine⟩ := List.mem_flatMap.mp cell
    obtain ⟨column, inside, rfl⟩ := List.mem_map.mp inLine
    rw [List.mem_range] at below inside
    refine ⟨Int.natCast_nonneg _, ?_, Int.natCast_nonneg _, by exact_mod_cast inside⟩
    have : b.sizeY - min n b.sizeY + i < b.sizeY := by omega
    exact_mod_cast this

/-- The cursor stays on the screen, the screen keeps its size, and the stores hit it. -/
structure Kept (b : ConsoleBuffer) (r : ConsoleBuffer × List Access) : Prop where
  inside : r.1.Inside
  sizeX : r.1.sizeX = b.sizeX
  sizeY : r.1.sizeY = b.sizeY
  stores : OnScreen b r.2

theorem scrollBack_kept (sizeX : b.sizeX ≤ 32767) (sizeY : b.sizeY ≤ 32767)
    (some_line : 1 ≤ b.sizeY) (left : 0 ≤ b.cursorX) (right : b.cursorX < b.sizeX)
    (below : b.cursorY = b.sizeY) : Kept b (scrollBack g b) := by
  have back : short (b.cursorY - 1) = b.sizeY - 1 := by
    rw [below, short_eq (by omega) (by omega)]
  refine ⟨⟨sizeX, sizeY, left, right, ?_, ?_⟩, rfl, rfl, scrollUp_onScreen 1⟩
  · change 0 ≤ short (b.cursorY - 1)
    rw [back]
    omega
  · change short (b.cursorY - 1) < b.sizeY
    rw [back]
    omega

theorem onScreen_nil : OnScreen b [] := by
  intro access mem
  cases mem

theorem ConsoleBuffer.Inside.cell (inside : b.Inside) :
    (Access.cell b.cursorY b.cursorX).OnScreen b.sizeX b.sizeY :=
  ⟨inside.top, inside.bottom, inside.left, inside.right⟩

theorem ConsoleBuffer.Inside.poke_kept (inside : b.Inside) (ucChar : ℕ) :
    Kept b (b.poke b.cursorY b.cursorX ucChar, [.cell b.cursorY b.cursorX]) := by
  obtain ⟨sizeX, sizeY, cursorX, cursorY, -⟩ := poke_rest (b := b) b.cursorY b.cursorX ucChar
  refine ⟨⟨?_, ?_, ?_, ?_, ?_, ?_⟩, sizeX, sizeY, ?_⟩
  · rw [sizeX]
    exact inside.sizeX
  · rw [sizeY]
    exact inside.sizeY
  · rw [cursorX]
    exact inside.left
  · rw [cursorX, sizeX]
    exact inside.right
  · rw [cursorY]
    exact inside.top
  · rw [cursorY, sizeY]
    exact inside.bottom
  · intro access mem
    rw [List.mem_singleton.mp mem]
    exact inside.cell

theorem backspace_kept (inside : b.Inside) : Kept b b.backspace := by
  have ⟨sizeX, sizeY, left, right, top, bottom⟩ := inside
  unfold backspace
  split
  · rename_i some_column
    have back : short (b.cursorX - 1) = b.cursorX - 1 := short_eq (by omega) (by omega)
    have moved : { b with cursorX := short (b.cursorX - 1) }.Inside := by
      rw [back]
      exact ⟨sizeX, sizeY, by simp only; omega, by simp only; omega, top, bottom⟩
    have kept := moved.poke_kept 0x20
    exact ⟨kept.inside, kept.sizeX, kept.sizeY, kept.stores⟩
  · split
    · rename_i some_line
      have back : short (b.cursorY - 1) = b.cursorY - 1 := short_eq (by omega) (by omega)
      have last : short ((b.sizeX : ℤ) - 1) = b.sizeX - 1 := short_eq (by omega) (by omega)
      have moved : { b with
          cursorY := short (b.cursorY - 1)
          cursorX := short (b.sizeX - 1) }.Inside := by
        rw [back, last]
        exact ⟨sizeX, sizeY, by simp only; omega, by simp only; omega, by simp only; omega,
          by simp only; omega⟩
      have kept := moved.poke_kept 0x20
      exact ⟨kept.inside, kept.sizeX, kept.sizeY, kept.stores⟩
    · exact ⟨inside, rfl, rfl, onScreen_nil⟩

theorem tabTo_kept (inside : b.Inside) {stop : ℤ} (positive : 0 ≤ stop)
    (bound : b.sizeX ≤ stop → b.cursorY + 1 < b.sizeY ∨ b.wraps = true) :
    Kept b (b.tabTo g stop) := by
  have ⟨sizeX, sizeY, left, right, top, bottom⟩ := inside
  have down : short (b.cursorY + 1) = b.cursorY + 1 := short_eq (by omega) (by omega)
  have width : (0 : ℤ) < b.sizeX := by omega
  unfold tabTo
  simp only [down]
  by_cases beyond : (b.sizeX : ℤ) ≤ stop
  · rw [if_pos beyond]
    have first : 0 ≤ stop % b.sizeX := Int.emod_nonneg _ (by omega)
    have last : stop % b.sizeX < b.sizeX := Int.emod_lt_of_pos _ width
    split
    · rename_i low
      have below : b.cursorY + 1 = b.sizeY := by
        have := low.1
        omega
      have kept := scrollBack_kept (g := g)
        (b := { b with cursorX := stop % b.sizeX, cursorY := b.cursorY + 1 })
        sizeX sizeY (by simp only; omega) first last below
      exact ⟨kept.inside, kept.sizeX, kept.sizeY, kept.stores⟩
    · rename_i high
      refine ⟨⟨sizeX, sizeY, first, last, by simp only; omega, ?_⟩, rfl, rfl, onScreen_nil⟩
      rcases bound beyond with stays | wraps
      · exact stays
      · have high' : ¬ ((b.sizeY : ℤ) ≤ b.cursorY + 1) := fun low => high ⟨low, wraps⟩
        simp only
        omega
  · rw [if_neg beyond]
    exact ⟨⟨sizeX, sizeY, positive, by simp only; omega, top, bottom⟩, rfl, rfl, onScreen_nil⟩

theorem tab_kept (inside : b.Inside) (fits : TabFits g b) : Kept b (b.tab g) :=
  tabTo_kept inside fits.1 fits.2

theorem lineFeed_kept (inside : b.Inside) : Kept b (b.lineFeed g) := by
  have ⟨sizeX, sizeY, left, right, top, bottom⟩ := inside
  have down : short (b.cursorY + 1) = b.cursorY + 1 := short_eq (by omega) (by omega)
  unfold lineFeed
  simp only [down]
  split
  · rename_i low
    have kept := scrollBack_kept (g := g) (b := { b with cursorY := b.cursorY + 1 })
      sizeX sizeY (by simp only; omega) left right (by simp only; omega)
    exact ⟨kept.inside, kept.sizeX, kept.sizeY, kept.stores⟩
  · exact ⟨⟨sizeX, sizeY, left, right, by simp only; omega, by simp only; omega⟩, rfl, rfl,
      onScreen_nil⟩

theorem advance_kept (inside : b.Inside) : Kept b (b.advance g) := by
  have ⟨sizeX, sizeY, left, right, top, bottom⟩ := inside
  have next : short (b.cursorX + 1) = b.cursorX + 1 := short_eq (by omega) (by omega)
  have down : short (b.cursorY + 1) = b.cursorY + 1 := short_eq (by omega) (by omega)
  have lastX : short ((b.sizeX : ℤ) - 1) = b.sizeX - 1 := short_eq (by omega) (by omega)
  have lastY : short ((b.sizeY : ℤ) - 1) = b.sizeY - 1 := short_eq (by omega) (by omega)
  unfold advance
  simp only [next, down, lastX, lastY]
  split
  · split
    · rename_i low
      split
      · have kept := scrollBack_kept (g := g)
          (b := { b with cursorX := 0, cursorY := b.cursorY + 1 })
          sizeX sizeY (by simp only; omega) (Int.le_refl 0) (by simp only; omega)
          (by simp only; omega)
        exact ⟨kept.inside, kept.sizeX, kept.sizeY, kept.stores⟩
      · exact ⟨⟨sizeX, sizeY, by simp only; omega, by simp only; omega, by simp only; omega,
          by simp only; omega⟩, rfl, rfl, onScreen_nil⟩
    · exact ⟨⟨sizeX, sizeY, Int.le_refl 0, by simp only; omega, by simp only; omega,
        by simp only; omega⟩, rfl, rfl, onScreen_nil⟩
  · exact ⟨⟨sizeX, sizeY, by simp only; omega, by simp only; omega, top, bottom⟩, rfl, rfl,
      onScreen_nil⟩

theorem putChar_kept (inside : b.Inside) (ucChar : ℕ) : Kept b (b.putChar g ucChar) := by
  have stored := inside.poke_kept ucChar
  have moved := advance_kept (g := g) stored.inside
  refine ⟨moved.inside, moved.sizeX.trans stored.sizeX, moved.sizeY.trans stored.sizeY, ?_⟩
  intro access mem
  rcases List.mem_cons.mp mem with rfl | later
  · exact inside.cell
  · have onScreen := moved.stores access later
    rw [stored.sizeX, stored.sizeY] at onScreen
    exact onScreen

theorem writeByte_kept (inside : b.Inside) {ucChar : ℕ}
    (fits : b.processed = true → ucChar = 9 → TabFits g b) : Kept b (b.writeByte g ucChar) := by
  unfold writeByte
  split
  · rename_i control
    split
    · exact backspace_kept inside
    · split
      · rename_i isTab
        exact tab_kept inside (fits control.1 isTab)
      · split
        · have width : (0 : ℤ) < b.sizeX := Int.lt_of_le_of_lt inside.left inside.right
          exact ⟨⟨inside.sizeX, inside.sizeY, Int.le_refl 0, width, inside.top, inside.bottom⟩,
            rfl, rfl, onScreen_nil⟩
        · split
          · exact lineFeed_kept inside
          · exact ⟨inside, rfl, rfl, onScreen_nil⟩
  · exact putChar_kept inside ucChar

theorem writeBytes_kept (inside : b.Inside) {bytes : List ℕ} (fits : BytesFit g b bytes) :
    Kept b (b.writeBytes g bytes) := by
  induction bytes generalizing b with
  | nil => exact ⟨inside, rfl, rfl, onScreen_nil⟩
  | cons ucChar bytes ih =>
    have one := writeByte_kept inside fits.1
    have more := ih one.inside fits.2
    refine ⟨more.inside, more.sizeX.trans one.sizeX, more.sizeY.trans one.sizeY, ?_⟩
    intro access mem
    rcases List.mem_append.mp mem with first | later
    · exact one.stores access first
    · have onScreen := more.stores access later
      rw [one.sizeX, one.sizeY] at onScreen
      exact onScreen

theorem writeFile_kept (inside : b.Inside) {bytes : List ℕ}
    (fits : b.allocated = true → BytesFit g b bytes) : Kept b (b.writeFile g bytes) := by
  unfold writeFile
  split
  · rename_i allocated
    exact writeBytes_kept inside (fits allocated)
  · exact ⟨inside, rfl, rfl, onScreen_nil⟩

end Bytes

/-! ## Runs -/

theorem resize_inside {g : ConsoleGlobals} {b : ConsoleBuffer} (inside : b.Inside) {x y : ℕ}
    {mem : Bool} {row column : ℕ} (sized : 1 ≤ x ∧ x ≤ 32767 ∧ 1 ≤ y ∧ y ≤ 32767)
    (fits : g.flVioConsole = true → mem = true → row < y ∧ column < x) :
    (b.setConsoleScreenBufferSize g x y mem row column).Inside := by
  have some_cell : y * (x * 2 + 4) ≠ 0 := Nat.mul_ne_zero (by omega) (by omega)
  unfold setConsoleScreenBufferSize
  rw [if_neg some_cell]
  by_cases given : mem = true
  · rw [if_neg (not_not_intro given)]
    by_cases vio : g.flVioConsole = true
    · obtain ⟨low, left⟩ := fits vio given
      have rowOk : short row = row := short_eq (by omega) (by omega)
      have columnOk : short column = column := short_eq (by omega) (by omega)
      simp only [vio, if_true, rowOk, columnOk]
      exact ⟨sized.2.1, sized.2.2.2, by simp only; omega, by simp only; omega, by simp only; omega,
        by simp only; omega⟩
    · have windowed : g.flVioConsole = false := by simpa using vio
      simp only [windowed, Bool.false_eq_true, if_false]
      exact ⟨sized.2.1, sized.2.2.2, Int.le_refl 0, by simp only; omega, Int.le_refl 0,
        by simp only; omega⟩
  · rw [if_pos given]
    exact inside

theorem call_inside {g : ConsoleGlobals} {b : ConsoleBuffer} (inside : b.Inside) {c : Call}
    (sized : c.Sized) (fits : CallFits g b c) :
    (call g b c).1.Inside ∧ ∀ bytes, c = .writeFile bytes → OnScreen b (call g b c).2 := by
  cases c with
  | writeFile bytes =>
    have kept := writeFile_kept inside fits
    exact ⟨kept.inside, fun _ _ => kept.stores⟩
  | setConsoleCursorPosition x y =>
    obtain ⟨left, right, top, bottom⟩ := fits
    exact ⟨⟨inside.sizeX, inside.sizeY, left, right, top, bottom⟩, fun _ eq => by cases eq⟩
  | setConsoleMode dwMode =>
    exact ⟨⟨inside.sizeX, inside.sizeY, inside.left, inside.right, inside.top, inside.bottom⟩,
      fun _ eq => by cases eq⟩
  | setConsoleTextAttribute wAttr =>
    exact ⟨⟨inside.sizeX, inside.sizeY, inside.left, inside.right, inside.top, inside.bottom⟩,
      fun _ eq => by cases eq⟩
  | setConsoleScreenBufferSize x y mem row column =>
    exact ⟨resize_inside inside sized fits, fun _ eq => by cases eq⟩

/-- In every run whose tabs, cursor positions and text mode resizes fit, the cursor is on the
screen after each call and every store was. -/
theorem run_inside (g : ConsoleGlobals) (b : ConsoleBuffer) (inside : b.Inside)
    (calls : List Call) (sized : ∀ c ∈ calls, c.Sized) (fits : CallsFit g b calls) :
    RunInside g b calls := by
  induction calls generalizing b with
  | nil => trivial
  | cons c calls ih =>
    obtain ⟨next, stores⟩ := call_inside inside (sized c (List.mem_cons_self ..)) fits.1
    exact ⟨next, stores, ih _ next (fun d mem => sized d (List.mem_cons_of_mem c mem)) fits.2⟩

def smallConsole : ConsoleGlobals := ⟨2, 8, false⟩

theorem newBuffer_inside : (newBuffer smallConsole 4 2).Inside :=
  ⟨by decide, by decide, by decide, by decide, by decide, by decide⟩

theorem run_inside_writing :
    RunInside smallConsole (newBuffer smallConsole 4 2)
      [.writeFile [0x41, 9, 0x42], .setConsoleCursorPosition 3 1, .writeFile [0x43, 8, 10]] := by
  refine run_inside smallConsole (newBuffer smallConsole 4 2) newBuffer_inside _ ?_ ?_
  · intro c mem
    simp only [List.mem_cons, List.not_mem_nil, or_false] at mem
    rcases mem with rfl | rfl | rfl <;> trivial
  · refine ⟨fun _ => ⟨fun _ eq => absurd eq (by decide), ?_, fun _ eq => absurd eq (by decide),
      trivial⟩, ⟨by decide, by decide, by decide, by decide⟩, fun _ => ⟨fun _ eq => absurd eq (by decide),
      fun _ eq => absurd eq (by decide), fun _ eq => absurd eq (by decide), trivial⟩, trivial⟩
    intro _ _
    exact ⟨by decide, fun _ => Or.inl (by decide)⟩

/-- A tab on the last line, with lines not wrapped, leaves the cursor below the screen. -/
theorem tab_not_inside : ¬ ∀ (g : ConsoleGlobals) (b : ConsoleBuffer), b.Inside →
    ∀ calls : List Call, (∀ c ∈ calls, c.Sized) → RunInside g b calls := by
  intro all
  have run := all smallConsole (newBuffer smallConsole 4 2) newBuffer_inside
    [.setConsoleMode 1, .writeFile [10, 9]] (by
      intro c mem
      simp only [List.mem_cons, List.not_mem_nil, or_false] at mem
      rcases mem with rfl | rfl <;> trivial)
  have below := run.2.2.1.bottom
  revert below
  decide

end Odin32.Console
