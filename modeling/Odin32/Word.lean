import Mathlib.Data.Nat.Notation
import Mathlib.Tactic.Common

/-! # 32-bit words

Unsigned 32-bit arithmetic on natural numbers, with the page rounding of the
`ALIGN` macro. Operands are taken to be words already. -/

set_option autoImplicit false

namespace Odin32.Word

def u32 (n : ℕ) : ℕ := n % 0x100000000

def add32 (a b : ℕ) : ℕ := u32 (a + b)

def sub32 (a b : ℕ) : ℕ := u32 (a + (0x100000000 - b))

/-- `ALIGN(a, PAGESIZE)`. -/
def alignPage (a : ℕ) : ℕ := add32 a 0xfff / 0x1000 * 0x1000

/-- The number of pages that hold `n` bytes. -/
def pagesFor (n : ℕ) : ℕ := (n + 0xfff) / 0x1000

theorem u32_lt (n : ℕ) : u32 n < 0x100000000 := Nat.mod_lt n (by decide)

theorem add32_lt (a b : ℕ) : add32 a b < 0x100000000 := u32_lt _

theorem add32_of_lt {a b : ℕ} (h : a + b < 0x100000000) : add32 a b = a + b :=
  Nat.mod_eq_of_lt h

theorem sub32_of_le {a b : ℕ} (h : b ≤ a) (ha : a < 0x100000000) : sub32 a b = a - b := by
  unfold sub32 u32
  omega

theorem alignPage_div {a : ℕ} (h : a + 0xfff < 0x100000000) :
    alignPage a / 0x1000 = pagesFor a := by
  unfold alignPage pagesFor
  rw [add32_of_lt h]
  omega

theorem alignPage_div_wrap {a : ℕ} (ha : a < 0x100000000) (h : 0x100000000 ≤ a + 0xfff) :
    alignPage a / 0x1000 = 0 := by
  unfold alignPage add32 u32
  omega

theorem pagesFor_pos {n : ℕ} : 0 < pagesFor n ↔ 0 < n := by
  unfold pagesFor
  omega

theorem lt_pagesFor {j n : ℕ} : j < pagesFor n ↔ 0x1000 * j < n := by
  unfold pagesFor
  omega

end Odin32.Word
