import Odin32.IndexLookup
import Mathlib.Tactic.Common

/-! # Runs of the index lookup

A table has no array window, or an array that holds exactly the indices from `iOffset` to
`iHigh`. A window never grows in a run that fits; it goes with `clear` and gets smaller with
`shrink`. -/

set_option autoImplicit false

namespace Odin32.IndexLookup

variable {s s' : State} {objects : Objects} {i : Int32}

/-! ## Integers -/

theorem toInt_sub {a b : Int32} (low : -2 ^ 31 ≤ a.toInt - b.toInt)
    (high : a.toInt - b.toInt < 2 ^ 31) : (a - b).toInt = a.toInt - b.toInt := by
  rw [Int32.toInt_sub]
  exact Int.bmod_eq_of_le (by omega) (by omega)

theorem units_eq {n : Int32} {k : ℕ} (eq : n.toInt = k) (small : k < 2 ^ 30) : units n = k := by
  rw [units, eq]
  omega

theorem units_count {low high : Int32} (le : low ≤ high)
    (small : high.toInt - low.toInt < 2 ^ 30 - 1) :
    units (high - low + 1) = (high.toInt - low.toInt).toNat + 1 := by
  have le' := Int32.le_iff_toInt_le.mp le
  have diff : (high - low).toInt = high.toInt - low.toInt := toInt_sub (by omega) (by omega)
  have one : (1 : Int32).toInt = 1 := rfl
  refine units_eq ?_ (by omega)
  rw [Int32.toInt_add, diff, one, Int.bmod_eq_of_le (by omega) (by omega)]
  omega

theorem units_index {low high : Int32} (above : low ≤ i) (below : i ≤ high)
    (small : high.toInt - low.toInt < 2 ^ 30 - 1) :
    units (i - low) = (i.toInt - low.toInt).toNat := by
  have above' := Int32.le_iff_toInt_le.mp above
  have below' := Int32.le_iff_toInt_le.mp below
  refine units_eq ?_ (by omega)
  rw [toInt_sub (by omega) (by omega)]
  omega

theorem memset_all (block : Block) {n : ℕ} (size : block.size = n) :
    ∃ block', memset block 0 n = some block' ∧ block'.size = n ∧
      ∀ k, k < n → block'.data k = 0 := by
  by_cases none : n = 0
  · exact ⟨block, if_pos none, size, fun k lt => absurd lt (by omega)⟩
  · refine ⟨⟨block.size, fun k => if 0 ≤ k ∧ k < 0 + n then 0 else block.data k⟩, ?_, size,
      fun k lt => if_pos ⟨Nat.zero_le k, by omega⟩⟩
    rw [memset, if_neg none, if_pos (by omega)]

/-! ## Windows -/

/-- The array holds the objects of the indices from `iOffset` to `iHigh`. -/
structure Window (s : State) (objects : Objects) (block : Block) : Prop where
  pEntries : s.pEntries = some block
  ordered : s.iOffset ≤ s.iHigh
  small : s.iHigh.toInt - s.iOffset.toInt < 2 ^ 30 - 1
  size : block.size = (s.iHigh.toInt - s.iOffset.toInt).toNat + 1
  here : ∀ i, s.iOffset ≤ i → i ≤ s.iHigh →
    block.data (i.toInt - s.iOffset.toInt).toNat = objects i
  elsewhere : ∀ i, i < s.iOffset ∨ s.iHigh < i → objects i = 0

/-- No element was added yet. -/
structure Unused (s : State) (objects : Objects) : Prop where
  low : s.iUsedOffset = intMax
  high : s.iUsedHigh = intMin
  none : ∀ i, objects i = 0

/-- The elements are between the used marks, and these in the window. -/
structure Used (s : State) (objects : Objects) : Prop where
  initialized : s.iInitialized ≠ 0
  low : s.iOffset ≤ s.iUsedOffset
  ordered : s.iUsedOffset ≤ s.iUsedHigh
  high : s.iUsedHigh ≤ s.iHigh
  elsewhere : ∀ i, i < s.iUsedOffset ∨ s.iUsedHigh < i → objects i = 0

/-- There is no window; an array of the constructor may be there still. -/
structure Empty (s : State) (objects : Objects) : Prop where
  low : s.iOffset = intMax
  high : s.iHigh = intMin
  size : s.iSize = 0
  unused : Unused s objects

/-- What holds between the calls of a run that fits. -/
def Inv (s : State) (objects : Objects) : Prop :=
  Empty s objects ∨ ∃ block, Window s objects block ∧ (Unused s objects ∨ Used s objects)

theorem isValidIndex_iff : s.isValidIndex i = true ↔ s.iOffset ≤ i ∧ i ≤ s.iHigh := by
  rw [State.isValidIndex, Bool.and_eq_true, decide_eq_true_eq, decide_eq_true_eq]

theorem Empty.invalid (empty : Empty s objects) : s.isValidIndex i = false := by
  refine Bool.eq_false_iff.mpr fun valid => ?_
  obtain ⟨above, below⟩ := isValidIndex_iff.mp valid
  rw [empty.low, Int32.le_iff_toInt_le] at above
  rw [empty.high, Int32.le_iff_toInt_le] at below
  exact absurd (Int.le_trans above below) (by decide)

section Access

variable {block : Block}

theorem Window.index (window : Window s objects block) (valid : s.isValidIndex i = true) :
    units (i - s.iOffset) = (i.toInt - s.iOffset.toInt).toNat ∧
      (i.toInt - s.iOffset.toInt).toNat < block.size := by
  obtain ⟨above, below⟩ := isValidIndex_iff.mp valid
  have above' := Int32.le_iff_toInt_le.mp above
  have below' := Int32.le_iff_toInt_le.mp below
  refine ⟨units_index above below window.small, ?_⟩
  rw [window.size]
  omega

theorem Window.load (window : Window s objects block) (valid : s.isValidIndex i = true) :
    s.load i = some (objects i) := by
  obtain ⟨index, lt⟩ := window.index valid
  obtain ⟨above, below⟩ := isValidIndex_iff.mp valid
  rw [State.load, window.pEntries]
  simp only [Option.bind_eq_bind, Option.bind_some, index, if_pos lt, window.here i above below]
  rfl

theorem Window.store (window : Window s objects block) (valid : s.isValidIndex i = true)
    (pObject : Pointer) :
    ∃ block', s.store i pObject = some { s with pEntries := some block' } ∧
      Window { s with pEntries := some block' } (Function.update objects i pObject) block' := by
  obtain ⟨index, lt⟩ := window.index valid
  obtain ⟨above, below⟩ := isValidIndex_iff.mp valid
  have above' := Int32.le_iff_toInt_le.mp above
  refine ⟨⟨block.size, Function.update block.data (i.toInt - s.iOffset.toInt).toNat pObject⟩, ?_,
    rfl, window.ordered, window.small, window.size, fun j above_j below_j => ?_, fun j out => ?_⟩
  · rw [State.store, window.pEntries]
    simp only [Option.bind_eq_bind, Option.bind_some, index, if_pos lt]
    rfl
  · by_cases eq : j = i
    · subst eq
      rw [Function.update_self]
      exact Function.update_self ..
    · have above_j' : s.iOffset.toInt ≤ j.toInt := Int32.le_iff_toInt_le.mp above_j
      have ne : j.toInt ≠ i.toInt := fun same => eq (Int32.toInt_inj.mp same)
      rw [Function.update_of_ne eq]
      refine (Function.update_of_ne ?_ ..).trans (window.here j above_j below_j)
      show (j.toInt - s.iOffset.toInt).toNat ≠ _
      omega
  · have ne : j ≠ i := by
      rintro rfl
      rcases out with under | past
      · exact absurd above (Int32.not_le.mpr under)
      · exact absurd below (Int32.not_le.mpr past)
    rw [Function.update_of_ne ne]
    exact window.elsewhere j out

theorem Window.absent (window : Window s objects block) (invalid : ¬ s.isValidIndex i = true) :
    objects i = 0 := by
  refine window.elsewhere i ?_
  by_contra inside
  rw [not_or, Int32.not_lt, Int32.not_lt] at inside
  exact invalid (isValidIndex_iff.mpr inside)

end Access

theorem Inv.absent (inv : Inv s objects) (invalid : ¬ s.isValidIndex i = true) :
    objects i = 0 := by
  rcases inv with empty | ⟨block, window, -⟩
  · exact empty.unused.none i
  · exact window.absent invalid

/-! ## Calls -/

theorem Inv.getElement (inv : Inv s objects) (i : Int32) :
    s.getElement i = some (objects i) := by
  by_cases valid : s.isValidIndex i = true
  · rcases inv with empty | ⟨block, window, -⟩
    · exact absurd valid (by rw [empty.invalid]; simp)
    · rw [State.getElement, if_pos valid, window.load valid]
  · rw [State.getElement, if_neg valid, inv.absent valid]

theorem Inv.removeElement (inv : Inv s objects) (i : Int32) :
    ∃ s', s.removeElement i = some (s', objects i) ∧ s'.limits = s.limits ∧
      Inv s' (Function.update objects i 0) := by
  by_cases valid : s.isValidIndex i = true
  · rcases inv with empty | ⟨block, window, marks⟩
    · exact absurd valid (by rw [empty.invalid]; simp)
    · obtain ⟨block', stored, window'⟩ := window.store valid 0
      have gone : ∀ j, objects j = 0 → Function.update objects i 0 j = 0 := by
        intro j none
        by_cases eq : j = i
        · rw [eq, Function.update_self]
        · rw [Function.update_of_ne eq, none]
      refine ⟨{ s with pEntries := some block' }, ?_, rfl, Or.inr ⟨block', window', ?_⟩⟩
      · rw [State.removeElement, if_pos valid, window.load valid, stored]
        rfl
      · rcases marks with unused | used
        · exact Or.inl ⟨unused.low, unused.high, fun j => gone j (unused.none j)⟩
        · exact Or.inr ⟨used.initialized, used.low, used.ordered, used.high,
            fun j out => gone j (used.elsewhere j out)⟩
  · refine ⟨s, ?_, rfl, ?_⟩
    · rw [State.removeElement, if_neg valid, inv.absent valid]
    · rw [← inv.absent valid, Function.update_eq_self]
      exact inv

theorem inv_clear (s : State) : Inv s.clear fun _ => 0 :=
  Or.inl ⟨rfl, rfl, rfl, rfl, rfl, fun _ => rfl⟩

/-- The used marks after an element was added. -/
def marked (s : State) (iIndex : Int32) : State :=
  { s with
    iUsedOffset := if iIndex < s.iUsedOffset then iIndex else s.iUsedOffset
    iUsedHigh := if s.iUsedHigh < iIndex then iIndex else s.iUsedHigh
    iInitialized := 1 }

theorem Unused.marked (unused : Unused s objects) (i : Int32) :
    (marked s i).iUsedOffset = i ∧ (marked s i).iUsedHigh = i := by
  constructor
  · rw [IndexLookup.marked, unused.low]
    by_cases below : i < intMax
    · exact if_pos below
    · refine (if_neg below).trans (Int32.toInt_inj.mp ?_)
      rw [Int32.not_lt, Int32.le_iff_toInt_le] at below
      exact Int.le_antisymm below i.toInt_le
  · rw [IndexLookup.marked, unused.high]
    by_cases above : intMin < i
    · exact if_pos above
    · refine (if_neg above).trans (Int32.toInt_inj.mp ?_)
      rw [Int32.not_lt, Int32.le_iff_toInt_le] at above
      exact Int.le_antisymm i.minValue_le_toInt above

theorem Used.marked (used : Used s objects) (i : Int32) :
    (marked s i).iUsedOffset ≤ i ∧ i ≤ (marked s i).iUsedHigh ∧
      (marked s i).iUsedOffset ≤ s.iUsedOffset ∧ s.iUsedHigh ≤ (marked s i).iUsedHigh := by
  have ordered := Int32.le_iff_toInt_le.mp used.ordered
  simp only [IndexLookup.marked, Int32.le_iff_toInt_le]
  split_ifs with below above above <;>
    simp only [Int32.lt_iff_toInt_lt] at below above <;> omega

theorem add_valid {block : Block} (window : Window s objects block)
    (marks : Unused s objects ∨ Used s objects) (valid : s.isValidIndex i = true)
    (pObject : Pointer) :
    ∃ s', (marked s i).store i pObject = some s' ∧ s'.limits = s.limits ∧
      Inv s' (Function.update objects i pObject) := by
  obtain ⟨above, below⟩ := isValidIndex_iff.mp valid
  have window' : Window (marked s i) objects block :=
    ⟨window.pEntries, window.ordered, window.small, window.size, window.here, window.elsewhere⟩
  obtain ⟨block', stored, window''⟩ := window'.store valid pObject
  refine ⟨_, stored, rfl, Or.inr ⟨block', window'', Or.inr ?_⟩⟩
  have initialized : (1 : Int32) ≠ 0 := by decide
  rcases marks with unused | used
  · obtain ⟨low, high⟩ := unused.marked i
    refine ⟨initialized, low.symm ▸ above, ?_, high.symm ▸ below, fun j out => ?_⟩
    · show (marked s i).iUsedOffset ≤ (marked s i).iUsedHigh
      rw [low, high]
      exact Int32.le_refl i
    · have ne : j ≠ i := by
        rintro rfl
        rcases out with under | past
        · have under' : j < (marked s j).iUsedOffset := under
          rw [low] at under'
          exact absurd under' (Int32.not_lt.mpr (Int32.le_refl j))
        · have past' : (marked s j).iUsedHigh < j := past
          rw [high] at past'
          exact absurd past' (Int32.not_lt.mpr (Int32.le_refl j))
      rw [Function.update_of_ne ne]
      exact unused.none j
  · obtain ⟨low, high, lower, higher⟩ := used.marked i
    refine ⟨initialized, ?_, Int32.le_trans low high, ?_, fun j out => ?_⟩
    · show s.iOffset ≤ if i < s.iUsedOffset then i else s.iUsedOffset
      split_ifs
      · exact above
      · exact used.low
    · show (if s.iUsedHigh < i then i else s.iUsedHigh) ≤ s.iHigh
      split_ifs
      · exact below
      · exact used.high
    · have out' : j < s.iUsedOffset ∨ s.iUsedHigh < j := by
        rcases out with under | past
        · exact Or.inl (Int32.lt_of_lt_of_le under lower)
        · exact Or.inr (Int32.lt_of_le_of_lt higher past)
      have ne : j ≠ i := by
        rintro rfl
        rcases out with under | past
        · exact absurd low (Int32.not_le.mpr under)
        · exact absurd high (Int32.not_le.mpr past)
      rw [Function.update_of_ne ne]
      exact used.elsewhere j out'

theorem refuses_eq (s : State) (i : Int32) : s.refuses i = !inside s.limits i := by
  cases limits : s.limits with
  | none => rw [State.refuses, limits, inside, Bool.not_true]
  | some pair =>
    obtain ⟨low, high⟩ := pair
    have under : decide (i < low) = !decide (low ≤ i) := by
      rw [← decide_not, decide_eq_decide]
      exact Int32.not_le.symm
    have past : decide (high < i) = !decide (i ≤ high) := by
      rw [← decide_not, decide_eq_decide]
      exact Int32.not_le.symm
    rw [State.refuses, limits, inside, Bool.not_and]
    simp only [under, past]

theorem grow_window {block : Block} (empty : Empty s objects) (size : block.size = 1)
    (zero : block.data 0 = 0) (i iSize : Int32) :
    Window { s with pEntries := some block, iSize := iSize, iOffset := i, iHigh := i } objects
      block where
  pEntries := rfl
  ordered := Int32.le_refl i
  small := by
    show i.toInt - i.toInt < _
    omega
  size := by
    show block.size = (i.toInt - i.toInt).toNat + 1
    omega
  here j above below := by
    have eq : j = i := Int32.le_antisymm below above
    have index : (j.toInt - i.toInt).toNat = 0 := by
      rw [eq]
      omega
    show block.data (j.toInt - i.toInt).toNat = objects j
    rw [index, zero, empty.unused.none j]
  elsewhere j _ := empty.unused.none j

theorem Empty.ensureCapacity0 (empty : Empty s objects) (mem : ℕ → Pointer)
    (fits : i = intMax ∨ i = intMin ∧ s.pEntries = none) :
    ∃ block iSize, s.ensureCapacity0 i mem =
        some ({ s with pEntries := some block, iSize := iSize, iOffset := i, iHigh := i }, true) ∧
      block.size = 1 ∧ block.data 0 = 0 := by
  have low := empty.low
  have high := empty.high
  have invalid := empty.invalid (i := i)
  have one : units 1 = 1 := rfl
  have nothing : units 0 = 0 := rfl
  rcases fits with rfl | ⟨rfl, none⟩
  · have grown : ∃ block, s.reallocateData 0 (intMax - s.iOffset + 1) mem = some block ∧
        block.size = 1 ∧ block.data 0 = 0 := by
      have required : intMax - s.iOffset + 1 = 1 := by
        rw [low]
        rfl
      rw [required]
      obtain ⟨block, cleared, size, zero⟩ := memset_all (malloc 1 mem) one
      refine ⟨block, ?_, size, zero 0 Nat.one_pos⟩
      rw [State.reallocateData]
      cases s.pEntries with
      | none =>
        rw [one]
        exact cleared
      | some old =>
        have same : units (0 * 4) = 0 := rfl
        have kept : memmove (malloc 1 mem) 0 old 0 0 = some (malloc 1 mem) := if_pos rfl
        simp only [same, empty.size, nothing, kept, Option.bind_eq_bind,
          Option.bind_some, if_true]
        exact cleared
    obtain ⟨block, made, size, zero⟩ := grown
    refine ⟨block, intMax - s.iOffset + 1, ?_, size, zero⟩
    have above : ¬ intMax < s.iOffset := by
      rw [low]
      decide
    have past : s.iHigh < intMax := by
      rw [high]
      decide
    rw [State.ensureCapacity0, invalid, if_neg (by simp), if_neg above, if_pos past]
    simp only [made, Option.bind_eq_bind, Option.bind_some]
    rw [low]
    rfl
  · have below : intMin < s.iOffset := by
      rw [low]
      decide
    have required : s.iHigh - intMin + 1 = 1 := by
      rw [high]
      rfl
    obtain ⟨block, cleared, size, zero⟩ := memset_all (malloc 1 mem) one
    refine ⟨block, 1, ?_, size, zero 0 Nat.one_pos⟩
    have made : s.reallocateData (s.iOffset - intMin) 1 mem = some block := by
      rw [State.reallocateData, none, one]
      exact cleared
    rw [State.ensureCapacity0, invalid, if_neg (by simp), if_pos below, required]
    simp only [made, Option.bind_eq_bind, Option.bind_some]
    rw [high]
    rfl

theorem Inv.addElement (inv : Inv s objects) (i : Int32) (pObject : Pointer) (mem : ℕ → Pointer)
    (fits : StepFits s (.addElement i pObject mem)) :
    ∃ s', s.addElement i pObject mem =
        some (s', if inside s.limits i then pObject else 0) ∧ s'.limits = s.limits ∧
      Inv s' (if inside s.limits i then Function.update objects i pObject else objects) := by
  by_cases refused : s.refuses i = true
  · have out : inside s.limits i = false := by simpa [refuses_eq] using refused
    refine ⟨s, ?_, rfl, ?_⟩
    · rw [State.addElement, State.ensureCapacity, if_pos refused, out]
      rfl
    · rw [out]
      exact inv
  · have within : inside s.limits i = true := by simpa [refuses_eq] using refused
    have ready : ∃ t block, s.ensureCapacity i mem = some (t, true) ∧ t.limits = s.limits ∧
        Window t objects block ∧ (Unused t objects ∨ Used t objects) ∧
        t.isValidIndex i = true := by
      rw [State.ensureCapacity, if_neg refused]
      rcases inv with empty | ⟨block, window, marks⟩
      · have sentinel : i = intMax ∨ i = intMin ∧ s.pEntries = none := by
          rcases fits with valid | refused' | ⟨-, sentinel⟩
          · exact absurd valid (by rw [empty.invalid]; simp)
          · exact absurd refused' refused
          · exact sentinel
        obtain ⟨block, iSize, made, size, zero⟩ := empty.ensureCapacity0 mem sentinel
        exact ⟨_, block, made, rfl, grow_window empty size zero i iSize,
          Or.inl ⟨empty.unused.low, empty.unused.high, empty.unused.none⟩,
          isValidIndex_iff.mpr ⟨Int32.le_refl i, Int32.le_refl i⟩⟩
      · have valid : s.isValidIndex i = true := by
          rcases fits with valid | refused' | ⟨inverted, -⟩
          · exact valid
          · exact absurd refused' refused
          · exact absurd window.ordered (Int32.not_le.mpr inverted)
        exact ⟨s, block, by rw [State.ensureCapacity0, if_pos valid], rfl, window, marks, valid⟩
    obtain ⟨t, block, made, limits, window, marks, valid⟩ := ready
    obtain ⟨s', stored, limits', inv'⟩ := add_valid window marks valid pObject
    refine ⟨s', ?_, limits'.trans limits, by rwa [within]⟩
    have stored' : State.store { t with
        iUsedOffset := if i < t.iUsedOffset then i else t.iUsedOffset
        iUsedHigh := if t.iUsedHigh < i then i else t.iUsedHigh
        iInitialized := 1 } i pObject = some s' := stored
    rw [State.addElement, made, within]
    simp only [Option.bind_eq_bind, Option.bind_some, if_true, stored']
    rfl

theorem memmove_all (block old : Block) (from_ : ℕ) {n : ℕ} (size : block.size = n)
    (within : from_ + n ≤ old.size) :
    ∃ block', memmove block 0 old from_ n = some block' ∧ block'.size = n ∧
      ∀ k, k < n → block'.data k = old.data (from_ + k) := by
  by_cases none : n = 0
  · exact ⟨block, if_pos none, size, fun k lt => absurd lt (by omega)⟩
  · refine ⟨⟨block.size, fun k =>
      if 0 ≤ k ∧ k < 0 + n then old.data (from_ + (k - 0)) else block.data k⟩, ?_, size,
      fun k lt => if_pos ⟨Nat.zero_le k, by omega⟩⟩
    rw [memmove, if_neg none, if_pos ⟨by omega, within⟩]

theorem Window.shrunk {block : Block} (window : Window s objects block) (used : Used s objects)
    (mem : ℕ → Pointer) (iSize : Int32) : ∃ block', s.shrunk mem = some block' ∧
      Window { s with
        pEntries := some block', iSize := iSize, iOffset := s.iUsedOffset
        iHigh := s.iUsedHigh } objects block' := by
  have low := Int32.le_iff_toInt_le.mp used.low
  have ordered := Int32.le_iff_toInt_le.mp used.ordered
  have high := Int32.le_iff_toInt_le.mp used.high
  have small := window.small
  have small' : s.iUsedHigh.toInt - s.iUsedOffset.toInt < 2 ^ 30 - 1 := by omega
  have count := units_count used.ordered small'
  have place : units (s.iUsedOffset - s.iOffset) =
      (s.iUsedOffset.toInt - s.iOffset.toInt).toNat :=
    units_index used.low (Int32.le_trans used.ordered used.high) small
  have size := window.size
  obtain ⟨block', moved, size', data⟩ := memmove_all
    (malloc (s.iUsedHigh - s.iUsedOffset + 1) mem) block
    (s.iUsedOffset.toInt - s.iOffset.toInt).toNat count (by omega)
  refine ⟨block', ?_, rfl, used.ordered, small', size', fun i above below => ?_, used.elsewhere⟩
  · rw [State.shrunk, window.pEntries, place, count]
    exact moved
  · have above' : s.iUsedOffset.toInt ≤ i.toInt := Int32.le_iff_toInt_le.mp above
    have below' : i.toInt ≤ s.iUsedHigh.toInt := Int32.le_iff_toInt_le.mp below
    have index : (s.iUsedOffset.toInt - s.iOffset.toInt).toNat +
        (i.toInt - s.iUsedOffset.toInt).toNat = (i.toInt - s.iOffset.toInt).toNat := by omega
    show block'.data (i.toInt - s.iUsedOffset.toInt).toNat = objects i
    rw [data _ (by omega), index]
    exact window.here i (Int32.le_trans used.low above) (Int32.le_trans below used.high)

theorem Inv.shrink (inv : Inv s objects) (mem : ℕ → Pointer)
    (fits : StepFits s (.shrink mem)) :
    ∃ s', s.shrink mem = some s' ∧ s'.limits = s.limits ∧ Inv s' objects := by
  rcases inv with empty | ⟨block, window, marks⟩
  · by_cases initialized : s.iInitialized = 0
    · exact ⟨_, if_pos initialized, rfl,
        Or.inl ⟨empty.low, empty.high, empty.size, empty.unused.low, empty.unused.high,
          empty.unused.none⟩⟩
    · have still : ¬ (s.iOffset < s.iUsedOffset ∨ s.iUsedHigh < s.iHigh) := by
        rw [empty.low, empty.unused.low, empty.high, empty.unused.high]
        decide
      refine ⟨s, ?_, rfl, Or.inl empty⟩
      rw [State.shrink, if_neg initialized, if_neg still]
  · have used : Used s objects := by
      rcases marks with unused | used
      · rcases fits with ordered | inverted
        · rw [unused.low, unused.high] at ordered
          exact absurd ordered (by decide)
        · exact absurd window.ordered (Int32.not_le.mpr inverted)
      · exact used
    by_cases more : s.iOffset < s.iUsedOffset ∨ s.iUsedHigh < s.iHigh
    · obtain ⟨block', moved, window'⟩ :=
        window.shrunk used mem (s.iUsedHigh - s.iUsedOffset + 1)
      refine ⟨{ s with
        pEntries := some block', iSize := s.iUsedHigh - s.iUsedOffset + 1
        iOffset := s.iUsedOffset, iHigh := s.iUsedHigh }, ?_, rfl, Or.inr ⟨block', window',
        Or.inr ⟨used.initialized, Int32.le_refl _, used.ordered, Int32.le_refl _,
          used.elsewhere⟩⟩⟩
      rw [State.shrink, if_neg used.initialized, if_pos more, moved]
      rfl
    · refine ⟨s, ?_, rfl, Or.inr ⟨block, window, Or.inr used⟩⟩
      rw [State.shrink, if_neg used.initialized, if_neg more]

variable {op : Op}

theorem step_spec (inv : Inv s objects) (fits : StepFits s op) :
    ∃ s', step s op = some (s', answerOf s.limits objects op) ∧ s'.limits = s.limits ∧
      Inv s' (after s.limits objects op) := by
  cases op with
  | addElement i pObject mem =>
    obtain ⟨s', added, limits, inv'⟩ := inv.addElement i pObject mem fits
    exact ⟨s', by rw [step, added]; rfl, limits, inv'⟩
  | removeElement i =>
    obtain ⟨s', removed, limits, inv'⟩ := inv.removeElement i
    exact ⟨s', by rw [step, removed]; rfl, limits, inv'⟩
  | getElement i => exact ⟨s, by rw [step, inv.getElement i]; rfl, rfl, inv⟩
  | shrink mem =>
    obtain ⟨s', shrunk, limits, inv'⟩ := inv.shrink mem fits
    exact ⟨s', by rw [step, shrunk]; rfl, limits, inv'⟩
  | clear => exact ⟨s.clear, rfl, rfl, inv_clear s⟩

/-! ## Runs -/

theorem runPromised_of_inv (ops : List Op) (inv : Inv s objects) (fits : RunFits s ops) :
    RunPromised s.limits s objects ops := by
  induction ops generalizing s objects with
  | nil => trivial
  | cons op ops ih =>
    obtain ⟨s', stepped, limits, inv'⟩ := step_spec inv fits.1
    have rest := ih inv' (fits.2 s' _ stepped)
    rw [limits] at rest
    exact ⟨s', stepped, rest⟩

theorem new_spec (iInitialSize iInitialized : Int32) (mem : ℕ → Pointer) :
    ∃ s, State.new iInitialSize mem iInitialized = some s ∧ s.limits = none ∧
      Inv s fun _ => 0 := by
  rw [State.new]
  by_cases positive : 0 < iInitialSize
  · obtain ⟨block, cleared, -⟩ := memset_all (malloc iInitialSize mem) rfl
    refine ⟨⟨none, some block, 0, intMax, intMax, intMin, intMin, iInitialized⟩, ?_, rfl,
      Or.inl ⟨rfl, rfl, rfl, rfl, rfl, fun _ => rfl⟩⟩
    simp only [if_pos positive]
    rw [show units iInitialSize = (malloc iInitialSize mem).size from rfl, cleared]
    rfl
  · exact ⟨⟨none, none, 0, intMax, intMax, intMin, intMin, iInitialized⟩, if_neg positive, rfl,
      Or.inl ⟨rfl, rfl, rfl, rfl, rfl, fun _ => rfl⟩⟩

theorem window_new {low high : Int32} (le : low ≤ high)
    (small : high.toInt - low.toInt < 2 ^ 30 - 1) (mem : ℕ → Pointer) (iInitialized : Int32) :
    ∃ block, memset (malloc (high - low + 1) mem) 0 (units (high - low + 1)) = some block ∧
      Inv ⟨some (low, high), some block, high - low + 1, low, intMax, high, intMin,
        iInitialized⟩ fun _ => 0 := by
  obtain ⟨block, cleared, size, zero⟩ := memset_all (malloc (high - low + 1) mem) rfl
  have count := units_count le small
  refine ⟨block, cleared, Or.inr ⟨block, ⟨rfl, le, small, size.trans count,
    fun i above below => zero _ ?_, fun _ _ => rfl⟩, Or.inl ⟨rfl, rfl, fun _ => rfl⟩⟩⟩
  have above' := Int32.le_iff_toInt_le.mp above
  have below' : i.toInt ≤ high.toInt := Int32.le_iff_toInt_le.mp below
  show (i.toInt - low.toInt).toNat < units (high - low + 1)
  rw [count]
  omega

theorem construction_spec (c : Construction) (mem : ℕ → Pointer) (iInitialized : Int32)
    (fits : c.Fits) : ∃ s, c.state mem iInitialized = some s ∧ s.limits = c.limits ∧
      Inv s fun _ => 0 := by
  cases c with
  | lookup iInitialSize => exact new_spec iInitialSize iInitialized mem
  | limit low high =>
    have bound : (high.toInt - low.toInt).natAbs < 2 ^ 30 - 1 := fits
    have empty : State.new 0 mem iInitialized =
        some ⟨none, none, 0, intMax, intMax, intMin, intMin, iInitialized⟩ := rfl
    rw [Construction.state, State.newLimit, empty, Construction.limits]
    by_cases lt : low < high
    · have other : ¬ high < low := Int32.lt_asymm lt
      obtain ⟨block, cleared, inv⟩ :=
        window_new (Int32.le_of_lt lt) (by omega) mem iInitialized
      simp only [Option.bind_eq_bind, Option.bind_some, if_pos lt, if_neg other,
        State.reallocateData, cleared]
      exact ⟨_, rfl, rfl, inv⟩
    · have le : high ≤ low := Int32.not_lt.mp lt
      have same : (if high < low then low else high) = low := by
        split_ifs with gt
        · rfl
        · exact Int32.le_antisymm le (Int32.not_lt.mp gt)
      obtain ⟨block, cleared, inv⟩ := window_new le (by omega) mem iInitialized
      simp only [Option.bind_eq_bind, Option.bind_some, if_neg lt, same, State.reallocateData,
        cleared]
      exact ⟨_, rfl, rfl, inv⟩

/-- The table is a map over every run that makes its windows only where the code can. -/
theorem indexLookup_promised (c : Construction) (mem : ℕ → Pointer) (iInitialized : Int32)
    (ops : List Op) (fits : c.Fits) :
    ∃ s, c.state mem iInitialized = some s ∧
      (RunFits s ops → RunPromised c.limits s (fun _ => 0) ops) := by
  obtain ⟨s, made, limits, inv⟩ := construction_spec c mem iInitialized fits
  refine ⟨s, made, fun run => ?_⟩
  rw [← limits]
  exact runPromised_of_inv ops inv run

/-- Elements come and go between hard limits. -/
def limited : List Op :=
  [.addElement 3 7 fun _ => 1, .getElement 3, .addElement 12 8 fun _ => 1, .shrink fun _ => 1,
    .removeElement 3, .clear]

theorem indexLookup_promised_limited :
    ∃ s, (Construction.limit 0 9).state (fun _ => 1) 0 = some s ∧
      RunPromised (some (0, 9)) s (fun _ => 0) limited := by
  have small : ((9 : Int32).toInt - (0 : Int32).toInt).natAbs < 2 ^ 30 - 1 := by decide
  obtain ⟨s, made, promised⟩ := indexLookup_promised (.limit 0 9) (fun _ => 1) 0 limited small
  refine ⟨s, made, promised ?_⟩
  obtain rfl := Option.some.inj made
  refine ⟨Or.inl (by decide +kernel), ?_⟩
  rintro _ _ ⟨⟩
  refine ⟨trivial, ?_⟩
  rintro _ _ ⟨⟩
  refine ⟨Or.inr (Or.inl (by decide +kernel)), ?_⟩
  rintro _ _ ⟨⟩
  refine ⟨Or.inl (by decide +kernel), ?_⟩
  rintro _ _ ⟨⟩
  refine ⟨trivial, ?_⟩
  rintro _ _ ⟨⟩
  exact ⟨trivial, fun _ _ _ => trivial⟩

/-- The first element comes to an index that is no sentinel. -/
def firstElement : List Op := [.addElement 0 7 fun _ => 0, .getElement 0]

/-- The high bound stays at its sentinel, and the element is not found. -/
theorem firstElement_not_promised :
    ¬ ∀ (c : Construction) (mem : ℕ → Pointer) (iInitialized : Int32) (ops : List Op), c.Fits →
      ∃ s, c.state mem iInitialized = some s ∧ RunPromised c.limits s (fun _ => 0) ops := by
  intro all
  obtain ⟨s, made, s', added, s'', got, -⟩ :=
    all (.lookup 0) (fun _ => 0) 0 firstElement trivial
  obtain rfl := Option.some.inj made
  cases added
  cases got

end Odin32.IndexLookup
