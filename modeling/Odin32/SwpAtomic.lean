import Odin32.SwpDescriptors

/-! # Calls of the swappable heap that fail

A call that fails leaves the heap as it was. The pointer to the anchor that `rmalloc` gives is not
looked at before the anchor is filled: `ppha`, which is tested, is never a null pointer. -/

set_option autoImplicit false

namespace Odin32.SwpHeap
open Odin32.HeapBlocks Odin32.MemblockPool Odin32.FreeSize Odin32.Word

/-- No null pointer is gone through, and with no pointer to answer the heap is as before. -/
structure FailsWhole (debug : Bool) (a : Answers) (op : Op) (h : SwpHeap) : Prop where
  defined : step debug a op h ≠ .error .nullPointer
  same : ∀ h', step debug a op h = .ok (h', none) → Same h h'

instance (a : Answers) (chunks : List MemblockChunk) : Decidable (TwoEntries a chunks) :=
  inferInstanceAs (Decidable (_ ∨ _ ∨ _))

instance (debug : Bool) (a : Answers) (cb : ℕ) (h : SwpHeap) : Decidable (Starved debug a cb h) :=
  inferInstanceAs (Decidable (_ ∧ _))

instance (debug : Bool) (a : Answers) (cbSize : ℕ) (h : SwpHeap) :
    Decidable (MallocStarved debug a cbSize h) :=
  inferInstanceAs (Decidable (_ ∧ _))

variable {debug : Bool} {lost : List ℕ} {h : SwpHeap} {a : Answers}

theorem Returned.failsWhole {starved plain : Prop} {accepts : HeapAnchor → Memblock → Prop}
    {op : Op} (returned : Returned debug lost h starved plain accepts (step debug a op h)) :
    FailsWhole debug a op h ↔ ¬starved := by
  constructor
  · intro whole starved_
    have defined := whole.defined
    generalize step debug a op h = result at returned defined
    cases returned with
    | null fed ok same => exact fed starved_
    | block fed answered => exact fed starved_
    | overrun fed => exact fed starved_
    | nullPointer starved_ => exact defined rfl
  · intro fed
    refine ⟨fun stopped => ?_, fun h' failed => ?_⟩
    · rw [stopped] at returned
      cases returned with
      | nullPointer starved_ => exact fed starved_
    · rw [failed] at returned
      cases returned with
      | null fed ok same => exact same

theorem reached_failsWhole (reached : Reached debug (Proper debug) h) (sound : a.Sound h) :
    (∀ cbSize, FailsWhole debug a (.malloc cbSize) h ↔ ¬MallocStarved debug a cbSize h) ∧
      ∀ pv cbNew, FailsWhole debug a (.realloc pv cbNew) h ↔
        ¬ReallocStarved debug a pv cbNew h := by
  obtain ⟨lost, ok⟩ := reached_ok reached
  refine ⟨fun cbSize => ?_, fun pv cbNew => ?_⟩
  · have returned : Returned _ _ _ _ _ _ (step debug a (.malloc cbSize) h) :=
      smalloc_spec ok sound cbSize
    exact returned.failsWhole
  · have returned : Returned _ _ _ _ _ _ (step debug a (.realloc pv cbNew) h) :=
      srealloc_spec ok sound pv cbNew
    exact returned.failsWhole

/-- A block that the first anchor has room for, and one for which there has to be another. -/
theorem sampleHeap_failsWhole : FailsWhole false noAnswers (.malloc 8) sampleHeap ∧
    ¬FailsWhole false noAnswers (.malloc 0x40004) sampleHeap := by
  have each := (reached_failsWhole (sampleHeap_reached false (Proper false))
    (noAnswers_sound sampleHeap)).1
  refine ⟨(each 8).2 (by decide +kernel), fun whole => ?_⟩
  have starved : MallocStarved false noAnswers 0x40004 sampleHeap := by decide +kernel
  exact (each 0x40004).1 whole starved

/-- The anchor of the second block is filled without its memory. -/
theorem reached_not_failsWhole :
    ¬∀ debug h a, Reached debug AnyCall h → a.Sound h →
      ∀ cbSize, FailsWhole debug a (.malloc cbSize) h := by
  intro always
  have whole := always false sampleHeap noAnswers (sampleHeap_reached false AnyCall)
    (noAnswers_sound sampleHeap) 0x40004
  have stopped : step false noAnswers (.malloc 0x40004) sampleHeap = .error .nullPointer := by
    decide +kernel
  exact whole.defined stopped

end Odin32.SwpHeap
