import Odin32.Word

/-! # Pages of an address space

Pages by their numbers: free, reserved or committed with some flags. -/

set_option autoImplicit false

namespace Odin32.PageMap

def pagRead : ℕ := 1
def pagWrite : ℕ := 2
def pagExecute : ℕ := 4
def pagGuard : ℕ := 8
def pagCommit : ℕ := 0x10

inductive Page where
  | free
  | reserved
  | committed (flags : ℕ)
deriving DecidableEq, Repr

abbrev Pages := ℕ → Page

/-- `DosSetMem` of a range, where the system takes it. -/
def setMem (page nrPages flags : ℕ) (pages : Pages) : Pages := fun q =>
  if page ≤ q ∧ q < page + nrPages then .committed flags else pages q

theorem setMem_inside {page nrPages q : ℕ} (flags : ℕ) (pages : Pages) (above : page ≤ q)
    (below : q < page + nrPages) : setMem page nrPages flags pages q = .committed flags :=
  if_pos ⟨above, below⟩

theorem setMem_outside {page nrPages q : ℕ} (flags : ℕ) (pages : Pages)
    (out : ¬ (page ≤ q ∧ q < page + nrPages)) : setMem page nrPages flags pages q = pages q :=
  if_neg out

end Odin32.PageMap
