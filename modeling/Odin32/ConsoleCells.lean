import Odin32.ConsoleBuffer
import Odin32.RowMajor

/-! # Runs of console cells

`FillConsoleOutput*`, `ReadConsoleOutput*` and `WriteConsoleOutput*` go along the cells of a
buffer from a start on, line after line. A cell is two bytes, and each call goes along one half
of them. The nine loops differ in the half and in what they do with it. A coordinate that is
less than the size of the buffer is counted up as a number, a `SHORT` has room for it; `char` is
unsigned. The flag for an update of the screen is left out. -/

set_option autoImplicit false

namespace Odin32.ConsoleCells

open Console RowMajor

/-! ## The calls -/

inductive Half where
  | char
  | attr
deriving DecidableEq

def get : Half → Cell → ℕ
  | .char, cell => cell.char
  | .attr, cell => cell.attr

def set : Half → Cell → ℕ → Cell
  | .char, cell, byte => { cell with char := byte }
  | .attr, cell, byte => { cell with attr := byte }

/-- `*(ppszLine[line] + column * 2 + half)` -/
def load (half : Half) (b : ConsoleBuffer) (line column : ℕ) : ℕ :=
  get half (b.storage (b.lines line) column)

/-- `*(ppszLine[line] + column * 2 + half) = byte` -/
def store (half : Half) (b : ConsoleBuffer) (line column byte : ℕ) : ConsoleBuffer :=
  let row := b.lines line
  let cell := set half (b.storage row column) byte
  { b with
    storage := Function.update b.storage row (Function.update (b.storage row) column cell) }

inductive LastError where
  | invalidParameter
deriving DecidableEq

structure Answer where
  returned : Bool
  lastError : Option LastError
  /-- What is stored where the caller wants the number of cells. -/
  number : Option ℕ
deriving DecidableEq

section Loop

variable {σ : Type}

/-- The loop, which ends with the number it stores. -/
def goAlong (b : ConsoleBuffer) (act : σ → ℕ → ℕ → ℕ → σ) : ℕ → ℕ → ℕ → ℕ → σ → σ × ℕ
  | 0, ulCounter, _, _, s => (s, ulCounter)
  | n + 1, ulCounter, y, x, s =>
    let s := act s ulCounter y x
    if b.sizeX ≤ x + 1 then
      -- the end of the buffer is left with the counter of the last cell
      if b.sizeY ≤ y + 1 then (s, ulCounter)
      else goAlong b act n (ulCounter + 1) (y + 1) 0 s
    else goAlong b act n (ulCounter + 1) y (x + 1) s

/-- A call from the checks on; `lp` is whether the pointer to the number is not `NULL`. -/
def transfer (b : ConsoleBuffer) (act : σ → ℕ → ℕ → ℕ → σ) (nLength : ℕ) (X Y : ℤ) (lp : Bool)
    (s : σ) : σ × Answer :=
  let report := fun number : ℕ => if lp then some number else none
  if X < 0 ∨ Y < 0 then (s, ⟨false, some .invalidParameter, report 0⟩)
  else if b.sizeX ≤ X ∨ b.sizeY ≤ Y then (s, ⟨false, some .invalidParameter, report 0⟩)
  else
    let ended := goAlong b act nLength 0 Y.toNat X.toNat s
    (ended.1, ⟨true, none, report ended.2⟩)

end Loop

variable (b : ConsoleBuffer)

def fillConsoleOutputAttribute (wAttribute : UInt16) (nLength : ℕ) (X Y : ℤ) (lp : Bool) :
    ConsoleBuffer × Answer :=
  transfer b (fun b _ line column => store .attr b line column (wAttribute.toNat % 0x100))
    nLength X Y lp b

def fillConsoleOutputCharacterA (ucCharacter : UInt8) (nLength : ℕ) (X Y : ℤ) (lp : Bool) :
    ConsoleBuffer × Answer :=
  transfer b (fun b _ line column => store .char b line column ucCharacter.toNat)
    nLength X Y lp b

def fillConsoleOutputCharacterW (wcCharacter : UInt16) (nLength : ℕ) (X Y : ℤ) (lp : Bool) :
    ConsoleBuffer × Answer :=
  transfer b (fun b _ line column => store .char b line column (wcCharacter.toNat % 0x100))
    nLength X Y lp b

def writeConsoleOutputAttribute (lpwAttribute : ℕ → UInt16) (cWriteCells : ℕ) (X Y : ℤ)
    (lp : Bool) : ConsoleBuffer × Answer :=
  transfer b
    (fun b ulCounter line column =>
      store .attr b line column ((lpwAttribute ulCounter).toNat % 0x100))
    cWriteCells X Y lp b

def writeConsoleOutputCharacterA (lpWriteBuffer : ℕ → UInt8) (cchWrite : ℕ) (X Y : ℤ)
    (lp : Bool) : ConsoleBuffer × Answer :=
  transfer b
    (fun b ulCounter line column => store .char b line column (lpWriteBuffer ulCounter).toNat)
    cchWrite X Y lp b

def writeConsoleOutputCharacterW (lpWriteBuffer : ℕ → UInt16) (cchWrite : ℕ) (X Y : ℤ)
    (lp : Bool) : ConsoleBuffer × Answer :=
  transfer b
    (fun b ulCounter line column =>
      store .char b line column ((lpWriteBuffer ulCounter).toNat % 0x100))
    cchWrite X Y lp b

def readConsoleOutputAttribute (lpwAttribute : ℕ → ℕ) (cReadCells : ℕ) (X Y : ℤ) (lp : Bool) :
    (ℕ → ℕ) × Answer :=
  transfer b
    (fun out ulCounter line column => Function.update out ulCounter (load .attr b line column))
    cReadCells X Y lp lpwAttribute

def readConsoleOutputCharacterA (lpwReadBuffer : ℕ → ℕ) (cchRead : ℕ) (X Y : ℤ) (lp : Bool) :
    (ℕ → ℕ) × Answer :=
  transfer b
    (fun out ulCounter line column => Function.update out ulCounter (load .char b line column))
    cchRead X Y lp lpwReadBuffer

def readConsoleOutputCharacterW (lpwReadBuffer : ℕ → ℕ) (cchRead : ℕ) (X Y : ℤ) (lp : Bool) :
    (ℕ → ℕ) × Answer :=
  transfer b
    (fun out ulCounter line column => Function.update out ulCounter (load .char b line column))
    cchRead X Y lp lpwReadBuffer

/-! ## What they are for -/

/-- A call that changes cells, with what it takes the bytes from. -/
inductive Call where
  | fillAttribute (wAttribute : UInt16)
  | fillCharacterA (ucCharacter : UInt8)
  | fillCharacterW (wcCharacter : UInt16)
  | writeAttribute (lpwAttribute : ℕ → UInt16)
  | writeCharacterA (lpWriteBuffer : ℕ → UInt8)
  | writeCharacterW (lpWriteBuffer : ℕ → UInt16)

namespace Call

def half : Call → Half
  | .fillAttribute _ | .writeAttribute _ => .attr
  | .fillCharacterA _ | .fillCharacterW _ | .writeCharacterA _ | .writeCharacterW _ => .char

/-- The byte for the cell `k` steps behind the start. -/
def given : Call → ℕ → ℕ
  | .fillAttribute wAttribute, _ => wAttribute.toNat % 0x100
  | .fillCharacterA ucCharacter, _ => ucCharacter.toNat
  | .fillCharacterW wcCharacter, _ => wcCharacter.toNat % 0x100
  | .writeAttribute lpwAttribute, k => (lpwAttribute k).toNat % 0x100
  | .writeCharacterA lpWriteBuffer, k => (lpWriteBuffer k).toNat
  | .writeCharacterW lpWriteBuffer, k => (lpWriteBuffer k).toNat % 0x100

def run (n : ℕ) (X Y : ℤ) (lp : Bool) : Call → ConsoleBuffer × Answer
  | .fillAttribute wAttribute => fillConsoleOutputAttribute b wAttribute n X Y lp
  | .fillCharacterA ucCharacter => fillConsoleOutputCharacterA b ucCharacter n X Y lp
  | .fillCharacterW wcCharacter => fillConsoleOutputCharacterW b wcCharacter n X Y lp
  | .writeAttribute lpwAttribute => writeConsoleOutputAttribute b lpwAttribute n X Y lp
  | .writeCharacterA lpWriteBuffer => writeConsoleOutputCharacterA b lpWriteBuffer n X Y lp
  | .writeCharacterW lpWriteBuffer => writeConsoleOutputCharacterW b lpWriteBuffer n X Y lp

end Call

/-- A call that reads cells. -/
inductive Reader where
  | attributes
  | charactersA
  | charactersW

namespace Reader

def half : Reader → Half
  | .attributes => .attr
  | .charactersA | .charactersW => .char

def run (out : ℕ → ℕ) (n : ℕ) (X Y : ℤ) (lp : Bool) : Reader → (ℕ → ℕ) × Answer
  | .attributes => readConsoleOutputAttribute b out n X Y lp
  | .charactersA => readConsoleOutputCharacterA b out n X Y lp
  | .charactersW => readConsoleOutputCharacterW b out n X Y lp

end Reader

/-- The cells of a run of `n`: as many as there are up to the end of the buffer. -/
def runLength (n x y : ℕ) : ℕ := min n (rest b.sizeX b.sizeY y x)

/-- The answer of a call that went along `number` cells. -/
def went (lp : Bool) (number : ℕ) : Answer := ⟨true, none, if lp then some number else none⟩

/-- The call changes its half of the cells of the run and no more, tells how many these are,
and the calls that read this half give back what the cells got. -/
structure Promised (call : Call) (n x y : ℕ) (lp : Bool) : Prop where
  run : ∀ k, k < runLength b n x y →
    load call.half (call.run b n x y lp).1 (place b.sizeX y x k).1 (place b.sizeX y x k).2 =
      call.given k
  other : ∀ half, half ≠ call.half → ∀ line column,
    load half (call.run b n x y lp).1 line column = load half b line column
  elsewhere : ∀ line column, line < b.sizeY → column < b.sizeX →
    (∀ k, k < runLength b n x y → place b.sizeX y x k ≠ (line, column)) →
    load call.half (call.run b n x y lp).1 line column = load call.half b line column
  outside : ∀ row column,
    (∀ k, k < runLength b n x y →
      (b.lines (place b.sizeX y x k).1, (place b.sizeX y x k).2) ≠ (row, column)) →
    (call.run b n x y lp).1.storage row column = b.storage row column
  frame : (call.run b n x y lp).1 = { b with storage := (call.run b n x y lp).1.storage }
  answer : (call.run b n x y lp).2 = went lp (runLength b n x y)
  reads : ∀ reader : Reader, reader.half = call.half → ∀ out : ℕ → ℕ,
    reader.run (call.run b n x y lp).1 out n x y lp =
      ((fun k => if k < runLength b n x y then call.given k else out k),
        went lp (runLength b n x y))

/-- Cells of the buffer that are one cell of the storage get one byte: two cells of the run the
same one, and a cell of the run what the cell outside of it holds. -/
structure Agrees (call : Call) (n x y : ℕ) : Prop where
  run : ∀ j k, j < runLength b n x y → k < runLength b n x y →
    b.lines (place b.sizeX y x j).1 = b.lines (place b.sizeX y x k).1 →
    (place b.sizeX y x j).2 = (place b.sizeX y x k).2 → call.given j = call.given k
  elsewhere : ∀ line column, line < b.sizeY → column < b.sizeX →
    (∀ k, k < runLength b n x y → place b.sizeX y x k ≠ (line, column)) →
    ∀ k, k < runLength b n x y → b.lines (place b.sizeX y x k).1 = b.lines line →
      (place b.sizeX y x k).2 = column → load call.half b line column = call.given k

/-! ## The loop -/

variable {b}

theorem get_set (half : Half) (cell : Cell) (byte : ℕ) : get half (set half cell byte) = byte := by
  cases half <;> rfl

theorem get_set_of_ne {half other : Half} (ne : other ≠ half) (cell : Cell) (byte : ℕ) :
    get other (set half cell byte) = get other cell := by
  cases half <;> cases other <;> first | rfl | exact absurd rfl ne

theorem set_set (half : Half) (cell : Cell) (byte byte' : ℕ) :
    set half (set half cell byte) byte' = set half cell byte' := by
  cases half <;> rfl

/-- The loop visits the cells of the run, and counts the last one only if it is not the last
one of the buffer. -/
theorem goAlong_spec {σ : Type} (act : σ → ℕ → ℕ → ℕ → σ) {n i x y : ℕ} {s : σ}
    (inside : x < b.sizeX) (below : y < b.sizeY) :
    goAlong b act n i y x s =
      ((List.range (runLength b n x y)).foldl
          (fun s k => act s (i + k) (place b.sizeX y x k).1 (place b.sizeX y x k).2) s,
        if n < rest b.sizeX b.sizeY y x then i + n else i + rest b.sizeX b.sizeY y x - 1) := by
  induction n generalizing i x y s with
  | zero =>
    have pos := rest_pos inside below
    rw [goAlong, runLength, Nat.zero_min, if_pos pos]
    rfl
  | succ n ih =>
    have pos := rest_pos inside below
    -- the rest of the run is a run from the next cell on
    have next : ∀ {x' y' : ℕ}, x' < b.sizeX → y' < b.sizeY →
        rest b.sizeX b.sizeY y' x' = rest b.sizeX b.sizeY y x - 1 →
        (∀ k, place b.sizeX y x (k + 1) = place b.sizeX y' x' k) →
        goAlong b act n (i + 1) y' x' (act s i y x) =
          ((List.range (runLength b (n + 1) x y)).foldl
              (fun s k => act s (i + k) (place b.sizeX y x k).1 (place b.sizeX y x k).2) s,
            if n + 1 < rest b.sizeX b.sizeY y x then i + (n + 1)
            else i + rest b.sizeX b.sizeY y x - 1) := by
      intro x' y' inside' below' left step
      have pos' := rest_pos inside' below'
      have length : runLength b (n + 1) x y = runLength b n x' y' + 1 := by
        rw [runLength, runLength, left]
        omega
      rw [ih inside' below', length, List.range_succ_eq_map, List.foldl_cons, List.foldl_map,
        place_zero inside]
      refine Prod.ext ?_ ?_
      · simp only [Nat.succ_eq_add_one, step, Nat.add_zero]
        congr 1
        funext s k
        rw [Nat.add_right_comm, Nat.add_assoc]
      · simp only [left]
        split_ifs <;> omega
    rw [goAlong]
    by_cases ends : b.sizeX ≤ x + 1
    · have ends' : x + 1 = b.sizeX := by omega
      rw [if_pos ends]
      by_cases bottom : b.sizeY ≤ y + 1
      · have one := rest_last ends' (show y + 1 = b.sizeY by omega)
        have length : runLength b (n + 1) x y = 1 := by
          rw [runLength, one]
          omega
        rw [if_pos bottom, length, one, if_neg (by omega)]
        simp [place_zero inside]
      · rw [if_neg bottom]
        exact next (by omega) (by omega) (rest_wrap ends' below) (place_wrap ends')
    · rw [if_neg ends]
      exact next (by omega) below rest_next place_next

theorem transfer_inside {σ : Type} (act : σ → ℕ → ℕ → ℕ → σ) {n x y : ℕ} (lp : Bool) {s : σ}
    (inside : x < b.sizeX) (below : y < b.sizeY) :
    transfer b act n x y lp s =
      ((List.range (runLength b n x y)).foldl
          (fun s k => act s k (place b.sizeX y x k).1 (place b.sizeX y x k).2) s,
        went lp (if n < rest b.sizeX b.sizeY y x then n else rest b.sizeX b.sizeY y x - 1)) := by
  have high : ¬ ((x : ℤ) < 0 ∨ (y : ℤ) < 0) := by omega
  have low : ¬ ((b.sizeX : ℤ) ≤ x ∨ (b.sizeY : ℤ) ≤ y) := by omega
  rw [transfer, if_neg high, if_neg low, Int.toNat_natCast, Int.toNat_natCast,
    goAlong_spec act inside below]
  simp only [Nat.zero_add]
  rfl

/-! ## What the calls do -/

/-- The bytes are stored one after the other. -/
def stores (half : Half) (given : ℕ → ℕ) (at_ : ℕ → ℕ × ℕ) (m : ℕ) (b : ConsoleBuffer) :
    ConsoleBuffer :=
  (List.range m).foldl (fun b k => store half b (at_ k).1 (at_ k).2 (given k)) b

variable {half : Half} {given : ℕ → ℕ} {at_ : ℕ → ℕ × ℕ} {m : ℕ}

theorem stores_succ : stores half given at_ (m + 1) b =
    store half (stores half given at_ m b) (at_ m).1 (at_ m).2 (given m) := by
  rw [stores, stores, List.range_succ, List.foldl_append]
  rfl

theorem stores_frame :
    stores half given at_ m b = { b with storage := (stores half given at_ m b).storage } := by
  induction m with
  | zero => rfl
  | succ m ih =>
    rw [stores_succ]
    generalize stores half given at_ m b = c at ih
    rw [ih]
    rfl

theorem stores_cell (row column : ℕ) :
    (∃ k, k < m ∧ b.lines (at_ k).1 = row ∧ (at_ k).2 = column ∧
      (stores half given at_ m b).storage row column =
        set half (b.storage row column) (given k)) ∨
    (∀ k, k < m → (b.lines (at_ k).1, (at_ k).2) ≠ (row, column)) ∧
      (stores half given at_ m b).storage row column = b.storage row column := by
  induction m with
  | zero => exact Or.inr ⟨fun k lt => absurd lt (Nat.not_lt_zero k), rfl⟩
  | succ m ih =>
    have lines : (stores half given at_ m b).lines = b.lines := by rw [stores_frame]
    rw [stores_succ, store]
    simp only [lines]
    by_cases hit : b.lines (at_ m).1 = row ∧ (at_ m).2 = column
    · obtain ⟨rfl, rfl⟩ := hit
      refine Or.inl ⟨m, Nat.lt_succ_self m, rfl, rfl, ?_⟩
      rw [Function.update_self, Function.update_self]
      rcases ih with ⟨k, -, -, -, eq⟩ | ⟨-, eq⟩
      · rw [eq, set_set]
      · rw [eq]
    · have same : Function.update (stores half given at_ m b).storage (b.lines (at_ m).1)
          (Function.update ((stores half given at_ m b).storage (b.lines (at_ m).1)) (at_ m).2
            (set half ((stores half given at_ m b).storage (b.lines (at_ m).1) (at_ m).2)
              (given m))) row column = (stores half given at_ m b).storage row column := by
        by_cases line : row = b.lines (at_ m).1
        · subst line
          rw [Function.update_self, Function.update_of_ne fun eq => hit ⟨rfl, eq.symm⟩]
        · rw [Function.update_of_ne line]
      rw [same]
      rcases ih with ⟨k, lt, line, col, eq⟩ | ⟨none, eq⟩
      · exact Or.inl ⟨k, Nat.lt_succ_of_lt lt, line, col, eq⟩
      · refine Or.inr ⟨fun k lt eq' => ?_, eq⟩
        rcases Nat.lt_succ_iff_lt_or_eq.mp lt with lt | rfl
        · exact none k lt eq'
        · exact hit ⟨(Prod.mk.inj eq').1, (Prod.mk.inj eq').2⟩

variable (b) in
/-- What the pointer gets: at the end of the buffer one too few. -/
def counted (n x y : ℕ) : ℕ :=
  if n < rest b.sizeX b.sizeY y x then n else rest b.sizeX b.sizeY y x - 1

theorem Call.run_spec (call : Call) {n x y : ℕ} (lp : Bool) (inside : x < b.sizeX)
    (below : y < b.sizeY) :
    call.run b n x y lp =
      (stores call.half call.given (place b.sizeX y x) (runLength b n x y) b,
        went lp (counted b n x y)) := by
  cases call with
  | fillAttribute | fillCharacterA | fillCharacterW | writeAttribute | writeCharacterA
  | writeCharacterW => exact transfer_inside _ lp inside below

theorem loads_spec (out : ℕ → ℕ) (m : ℕ) :
    (List.range m).foldl (fun out k =>
        Function.update out k (load half b (at_ k).1 (at_ k).2)) out =
      fun k => if k < m then load half b (at_ k).1 (at_ k).2 else out k := by
  induction m with
  | zero =>
    funext k
    exact (if_neg (Nat.not_lt_zero k)).symm
  | succ m ih =>
    rw [List.range_succ, List.foldl_append, ih]
    funext k
    rw [List.foldl_cons, List.foldl_nil]
    by_cases eq : k = m
    · subst eq
      rw [Function.update_self, if_pos (Nat.lt_succ_self k)]
    · rw [Function.update_of_ne eq]
      by_cases lt : k < m
      · rw [if_pos lt, if_pos (Nat.lt_succ_of_lt lt)]
      · rw [if_neg lt, if_neg (by omega)]

theorem Reader.run_spec (reader : Reader) (out : ℕ → ℕ) {n x y : ℕ} (lp : Bool)
    (inside : x < b.sizeX) (below : y < b.sizeY) :
    reader.run b out n x y lp =
      ((fun k => if k < runLength b n x y then
          load reader.half b (place b.sizeX y x k).1 (place b.sizeX y x k).2 else out k),
        went lp (counted b n x y)) := by
  cases reader with
  | attributes | charactersA | charactersW =>
    exact (transfer_inside _ lp inside below).trans (congrArg (·, _) (loads_spec out _))

/-! ## The promise -/

theorem counted_eq_iff {n x y : ℕ} (inside : x < b.sizeX) (below : y < b.sizeY) :
    counted b n x y = runLength b n x y ↔ n < rest b.sizeX b.sizeY y x := by
  have pos := rest_pos inside below
  rw [counted, runLength]
  split_ifs <;> omega

theorem went_eq_iff {lp : Bool} {j k : ℕ} : went lp j = went lp k ↔ (lp = true → j = k) := by
  cases lp <;> simp [went]

theorem load_run (call : Call) {n x y : ℕ} (lp : Bool) (inside : x < b.sizeX)
    (below : y < b.sizeY) (line column : ℕ) :
    (∃ k, k < runLength b n x y ∧ b.lines (place b.sizeX y x k).1 = b.lines line ∧
      (place b.sizeX y x k).2 = column ∧
      load call.half (call.run b n x y lp).1 line column = call.given k) ∨
    (∀ k, k < runLength b n x y →
      (b.lines (place b.sizeX y x k).1, (place b.sizeX y x k).2) ≠ (b.lines line, column)) ∧
      load call.half (call.run b n x y lp).1 line column = load call.half b line column := by
  have same : load call.half (call.run b n x y lp).1 line column =
      get call.half ((stores call.half call.given (place b.sizeX y x) (runLength b n x y)
        b).storage (b.lines line) column) := by
    rw [call.run_spec lp inside below, load, stores_frame]
  rw [same]
  rcases @stores_cell b call.half call.given _ _ (b.lines line) column with
    ⟨k, lt, line', col, eq⟩ | ⟨none, eq⟩
  · exact Or.inl ⟨k, lt, line', col, (congrArg (get call.half) eq).trans (get_set ..)⟩
  · exact Or.inr ⟨none, congrArg (get call.half) eq⟩

theorem load_congr {b' : ConsoleBuffer} (frame : b' = { b with storage := b'.storage })
    (half : Half) {line line' column column' : ℕ} (lines : b.lines line = b.lines line')
    (columns : column = column') : load half b' line column = load half b' line' column' := by
  have same : b'.lines = b.lines := by rw [frame]
  rw [load, load, same, lines, columns]

theorem run_frame (call : Call) {n x y : ℕ} (lp : Bool) (inside : x < b.sizeX)
    (below : y < b.sizeY) :
    (call.run b n x y lp).1 = { b with storage := (call.run b n x y lp).1.storage } := by
  rw [call.run_spec lp inside below]
  exact stores_frame

variable {call : Call} {n x y : ℕ} {lp : Bool}

theorem Promised.agrees (promised : Promised b call n x y lp) : Agrees b call n x y where
  run j k ltj ltk lines columns := by
    rw [← promised.run j ltj, ← promised.run k ltk]
    exact load_congr promised.frame _ lines columns
  elsewhere line column below inside none k lt lines columns := by
    rw [← promised.run k lt, ← promised.elsewhere line column below inside none]
    exact (load_congr promised.frame _ lines columns).symm

theorem reads_back (fits : lp = true → n < rest b.sizeX b.sizeY y x)
    (inside : x < b.sizeX) (below : y < b.sizeY)
    (run : ∀ k, k < runLength b n x y →
      load call.half (call.run b n x y lp).1 (place b.sizeX y x k).1 (place b.sizeX y x k).2 =
        call.given k)
    (reader : Reader) (half : reader.half = call.half) (out : ℕ → ℕ) :
    reader.run (call.run b n x y lp).1 out n x y lp =
      ((fun k => if k < runLength b n x y then call.given k else out k),
        went lp (runLength b n x y)) := by
  have frame := run_frame call (n := n) lp inside below
  have width : (call.run b n x y lp).1.sizeX = b.sizeX := by rw [frame]
  have height : (call.run b n x y lp).1.sizeY = b.sizeY := by rw [frame]
  rw [reader.run_spec out lp (by rwa [width]) (by rwa [height]), half]
  simp only [runLength, counted, width, height]
  refine Prod.ext (funext fun k => ?_) (went_eq_iff.mpr fun asked => ?_)
  · by_cases lt : k < runLength b n x y
    · exact (if_pos lt).trans ((run k lt).trans (if_pos lt).symm)
    · exact (if_neg lt).trans (if_neg lt).symm
  · exact (counted_eq_iff inside below).mpr (fits asked)

theorem Agrees.promised (agrees : Agrees b call n x y)
    (fits : lp = true → n < rest b.sizeX b.sizeY y x) (inside : x < b.sizeX)
    (below : y < b.sizeY) : Promised b call n x y lp := by
  have run : ∀ k, k < runLength b n x y →
      load call.half (call.run b n x y lp).1 (place b.sizeX y x k).1 (place b.sizeX y x k).2 =
        call.given k := by
    intro k lt
    rcases load_run call lp inside below (place b.sizeX y x k).1 (place b.sizeX y x k).2 with
      ⟨j, ltj, lines, columns, eq⟩ | ⟨none, -⟩
    · rw [eq]
      exact agrees.run j k ltj lt lines columns
    · exact absurd rfl (none k lt)
  refine ⟨run, fun half ne line column => ?_, fun line column below' inside' none => ?_,
    fun row column none => ?_, run_frame call lp inside below, ?_,
    reads_back fits inside below run⟩
  · rw [call.run_spec lp inside below, load, load, stores_frame]
    rcases @stores_cell b call.half call.given _ _ (b.lines line) column with
      ⟨k, -, -, -, eq⟩ | ⟨-, eq⟩
    · exact (congrArg (get half) eq).trans (get_set_of_ne ne _ _)
    · exact congrArg (get half) eq
  · rcases load_run call lp inside below line column with ⟨k, lt, lines, columns, eq⟩ | ⟨-, eq⟩
    · rw [eq]
      exact (agrees.elsewhere line column below' inside' none k lt lines columns).symm
    · exact eq
  · rw [call.run_spec lp inside below]
    rcases @stores_cell b call.half call.given _ _ row column with
      ⟨k, lt, lines, columns, -⟩ | ⟨-, eq⟩
    · exact absurd (Prod.ext lines columns) (none k lt)
    · exact eq
  · rw [call.run_spec lp inside below]
    exact went_eq_iff.mpr fun asked => (counted_eq_iff inside below).mpr (fits asked)

theorem agrees_of_distinct
    (distinct : ∀ i j, i < b.sizeY → j < b.sizeY → b.lines i = b.lines j → i = j) (call : Call)
    (n : ℕ) (inside : x < b.sizeX) : Agrees b call n x y where
  run j k ltj ltk lines columns := by
    have lines' := distinct _ _
      (place_inside inside (Nat.lt_of_lt_of_le ltj (Nat.min_le_right ..))).1
      (place_inside inside (Nat.lt_of_lt_of_le ltk (Nat.min_le_right ..))).1 lines
    rw [place_inj (Prod.ext lines' columns)]
  elsewhere line column below _ none k lt lines columns := by
    have lines' := distinct _ _
      (place_inside inside (Nat.lt_of_lt_of_le lt (Nat.min_le_right ..))).1 below lines
    exact absurd (Prod.ext lines' columns) (none k lt)

end Odin32.ConsoleCells
