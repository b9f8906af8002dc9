import Odin32.FixedMem

/-! # Where the image is placed

The blocks of the loop take the slots of the free memory in their order, so what `place` finds
follows from the memory that is free before. -/

set_option autoImplicit false

namespace Odin32.FixedMem
open Odin32.Word Odin32.FirstFit

/-- The result is right: memory at the preferred base or none, and no other block is held. -/
def AtBase (originalBaseAddress imageSize : ℕ) : Option Result → Prop
  | none => False
  | some r => (r.fOk = true → r.realBaseAddress = originalBaseAddress) ∧ r.alloccnt ≤ 4096 ∧
      r.mine = if r.fOk then [⟨r.realBaseAddress / 0x10000, unitsFor imageSize⟩] else []

/-! ## The condition on the free memory -/

section

variable (free : ℕ → Prop) [DecidablePred free]

/-- The first slot that ends at or above the base starts at or below it. -/
structure Spanned (originalBaseAddress s : ℕ) : Prop where
  slot : Slot free 16 s
  reaches : originalBaseAddress ≤ 0x10000 * s + fallocSize
  first : ∀ t, Slot free 16 t → t < s → 0x10000 * t + fallocSize < originalBaseAddress
  below : 0x10000 * s ≤ originalBaseAddress

/-- Between the slots below `s` no area of that many units is left over. -/
def NoneLeft (s units : ℕ) : Prop := ∀ j, j + units ≤ s → ¬ Area (Rest free 16 s) j units

/-- The slot starts at the base: the image gets its memory there, or none anywhere. -/
structure LandsAt (s imageSize : ℕ) : Prop where
  none_left : NoneLeft free s (unitsFor imageSize)
  there : Area free s (unitsFor imageSize) ∨ ∀ j, s ≤ j → ¬ Area free j (unitsFor imageSize)

/-- The slot starts `d` units below the base: neither the gap nor the image fits below it, and
there is memory for the image at the base. -/
structure LandsAbove (s d imageSize : ℕ) : Prop where
  gap : NoneLeft free s d
  size : 0 < imageSize
  none_left : NoneLeft free s (unitsFor imageSize)
  there : Area free (s + d) (unitsFor imageSize)

def Lands (originalBaseAddress imageSize : ℕ) : Prop :=
  ∀ s, Spanned free originalBaseAddress s →
    (originalBaseAddress = 0x10000 * s ∧ (0 < imageSize → LandsAt free s imageSize)) ∨
    ∃ d, 0 < d ∧ originalBaseAddress = 0x10000 * (s + d) ∧ LandsAbove free s d imageSize

end

/-! ## Blocks that are given back -/

theorem freeMem_append {mine : List Block} {b : Block} (away : ∀ c ∈ mine, c.start ≠ b.start) :
    osLibDosFreeMem b.address (mine ++ [b]) = mine := by
  have kept : ∀ c ∈ mine, c.address ≠ b.address := fun c there same => by
    unfold Block.address at same
    exact away c there (by omega)
  rw [osLibDosFreeMem, List.filter_append, List.filter_eq_self.2 (by simpa using kept),
    List.filter_cons_of_neg (by simp), List.filter_nil, List.append_nil]

theorem freeAll_eq (memallocs : List ℕ) (mine : List Block) :
    freeAll memallocs mine = mine.filter fun b => b.address ∉ memallocs := by
  induction memallocs generalizing mine with
  | nil => simp [freeAll]
  | cons address rest ih =>
    rw [freeAll, List.foldl_cons, ← freeAll, ih, osLibDosFreeMem, List.filter_filter]
    congr 1
    funext b
    simp [Bool.and_comm]

theorem freeMem_gap {mine : List Block} {gap b : Block} (away : ∀ c ∈ mine, c.start ≠ gap.start)
    (other : b.start ≠ gap.start) :
    osLibDosFreeMem gap.address (mine ++ [gap] ++ [b]) = mine ++ [b] := by
  have ne : b.address ≠ gap.address := by
    unfold Block.address
    omega
  have front := freeMem_append away
  rw [osLibDosFreeMem] at front ⊢
  rw [List.filter_append, front, List.filter_cons_of_pos (by simpa using ne), List.filter_nil]

/-- The blocks of the loop. -/
def fillers (starts : List ℕ) : List Block := starts.map fun s => ⟨s, 16⟩

def fillerAddresses (starts : List ℕ) : List ℕ := starts.map fun s => 0x10000 * s

theorem mem_fillerAddresses {starts : List ℕ} {b : Block} :
    b.address ∈ fillerAddresses starts ↔ b.start ∈ starts := by
  simp only [fillerAddresses, List.mem_map, Block.address]
  constructor
  · rintro ⟨s, there, same⟩
    obtain rfl : s = b.start := by omega
    exact there
  · exact fun there => ⟨b.start, there, rfl⟩

theorem freeAll_fillers (starts : List ℕ) (others : List Block)
    (away : ∀ b ∈ others, b.start ∉ starts) :
    freeAll (fillerAddresses starts) (fillers starts ++ others) = others := by
  rw [freeAll_eq, List.filter_append]
  have gone : (fillers starts).filter (fun b => b.address ∉ fillerAddresses starts) = [] := by
    refine List.filter_eq_nil_iff.2 fun b there => ?_
    obtain ⟨s, inside, rfl⟩ := List.mem_map.1 there
    simpa [mem_fillerAddresses] using inside
  rw [gone, List.nil_append, List.filter_eq_self.2]
  intro b there
  simpa [mem_fillerAddresses] using away b there

theorem result_none {starts : List ℕ} {originalBaseAddress imageSize : ℕ}
    (few : starts.length ≤ 4096) :
    AtBase originalBaseAddress imageSize
      (some (Outcome.mk 0 (fillerAddresses starts) (fillers starts)).result) := by
  refine ⟨fun now => absurd now (by simp [Outcome.result]), ?_, ?_⟩
  · simpa [Outcome.result, fillerAddresses] using few
  · simpa [Outcome.result] using freeAll_fillers starts [] (by simp)

theorem result_left {starts : List ℕ} {originalBaseAddress imageSize : ℕ} {b : Block}
    (away : b.start ∉ starts) :
    ¬ AtBase originalBaseAddress imageSize
      (some (Outcome.mk 0 (fillerAddresses starts) (fillers starts ++ [b])).result) := by
  rintro ⟨-, -, held⟩
  have left := freeAll_fillers starts [b] (by simpa using away)
  simp [Outcome.result, left] at held

theorem result_some {starts : List ℕ} {originalBaseAddress imageSize a : ℕ} (pos : 0 < a)
    (few : starts.length ≤ 4096) (away : a ∉ starts) :
    AtBase originalBaseAddress imageSize (some (Outcome.mk (0x10000 * a) (fillerAddresses starts)
      (fillers starts ++ [⟨a, unitsFor imageSize⟩])).result) ↔
      0x10000 * a = originalBaseAddress := by
  have fOk : decide (0x10000 * a ≠ 0) = true := decide_eq_true (by omega)
  have held := freeAll_fillers starts [⟨a, unitsFor imageSize⟩] (by simpa using away)
  have count : (fillerAddresses starts).length ≤ 4096 := by simpa [fillerAddresses] using few
  simp only [AtBase, Outcome.result, fOk, held, count, if_true,
    Nat.mul_div_cancel_left a (show 0 < 0x10000 by decide), true_implies, and_true]

/-! ## The block for the image -/

section

variable {sp : Space} {fLowMemory : Bool} {starts : List ℕ} {s : ℕ}
  (held : ∀ u, sp.Open fLowMemory (fillers starts) u ↔
    Rest (sp.Open fLowMemory []) 16 s u)
include held

theorem area_held {j n : ℕ} : Area (sp.Open fLowMemory (fillers starts)) j n ↔
    Area (Rest (sp.Open fLowMemory []) 16 s) j n :=
  forall_congr' fun u => by rw [held]

omit held in
theorem open_pos {mine : List Block} {u : ℕ} (here : sp.Open fLowMemory mine u) : 0 < u :=
  (sp.arena fLowMemory).pos.trans_le (open_iff.1 here).1

omit held in
theorem open_away {u : ℕ} (here : sp.Open fLowMemory (fillers starts) u) : u ∉ starts := by
  intro inside
  have out := (open_iff.1 here).2.2.2 ⟨u, 16⟩ (List.mem_map.2 ⟨u, inside, rfl⟩)
  dsimp only at out
  omega

theorem place_at (slot : Slot (sp.Open fLowMemory []) 16 s) (few : starts.length ≤ 4096)
    (imageSize : ℕ) :
    AtBase (0x10000 * s) imageSize (some (place sp (0x10000 * s) imageSize (0x10000 * s)
      fLowMemory (fillerAddresses starts) (fillers starts)).result) ↔
      (0 < imageSize → LandsAt (sp.Open fLowMemory []) s imageSize) := by
  simp only [place, Nat.sub_self, if_true]
  rcases alloc_cases sp imageSize fLowMemory (fillers starts) with
    ⟨answer, nowhere⟩ | ⟨a, size, area, least, answer⟩
  · simp only [answer]
    refine iff_of_true (result_none few) fun size => ⟨?_, .inr ?_⟩
    · intro j _ area
      exact nowhere size j ((area_held held).2 area)
    · intro j above area
      refine nowhere size j ((area_held held).2 fun u le lt => ?_)
      exact (slot.rest_iff (above.trans le)).2 (area u le lt)
  · have units := unitsFor_pos.2 size
    have first := area a le_rfl (by omega)
    rw [area_held held] at area
    simp only [answer]
    rw [result_some (open_pos first) few (open_away first)]
    have same : 0x10000 * a = 0x10000 * s ↔ a = s := by omega
    rw [same]
    constructor
    · rintro rfl -
      refine ⟨fun j low left => ?_, .inl fun u le lt => (area u le lt).1⟩
      have := least j ((area_held held).2 left)
      omega
    · intro lands
      obtain ⟨none_left, there⟩ := lands size
      have notBelow : s ≤ a := by
        by_contra lower
        exact none_left a (slot.below_of_area (by decide) area (not_le.1 lower)) area
      rcases there with there | nowhere
      · refine le_antisymm (least s ((area_held held).2 fun u le lt => ?_)) notBelow
        exact (slot.rest_iff le).2 (there u le lt)
      · exact absurd (fun u le lt => (area u le lt).1) (nowhere a notBelow)

theorem place_above (slot : Slot (sp.Open fLowMemory []) 16 s) (few : starts.length ≤ 4096)
    (originalBaseAddress imageSize : ℕ) (above : 0x10000 * s < originalBaseAddress)
    (reaches : originalBaseAddress ≤ 0x10000 * s + fallocSize) :
    AtBase originalBaseAddress imageSize (some (place sp originalBaseAddress imageSize
      (0x10000 * s) fLowMemory (fillerAddresses starts) (fillers starts)).result) ↔
      ∃ d, 0 < d ∧ originalBaseAddress = 0x10000 * (s + d) ∧
        LandsAbove (sp.Open fLowMemory []) s d imageSize := by
  have diff : originalBaseAddress - 0x10000 * s ≠ 0 := by omega
  have short : unitsFor (originalBaseAddress - 0x10000 * s) ≤ 16 := by
    rw [unitsFor_le]
    unfold fallocSize at reaches
    omega
  have slot_held : Area (sp.Open fLowMemory (fillers starts)) s
      (unitsFor (originalBaseAddress - 0x10000 * s)) :=
    (area_held held).2 ((slot.rest le_rfl).sub le_rfl (by omega))
  simp only [place, if_neg diff]
  rcases alloc_cases sp (originalBaseAddress - 0x10000 * s) fLowMemory (fillers starts) with
    ⟨-, nowhere⟩ | ⟨g, gap_size, gap, gap_least, answer⟩
  · exact absurd slot_held (nowhere (by omega) s)
  have gap_units := unitsFor_pos.2 gap_size
  have gap_low : g ≤ s := gap_least s slot_held
  have gap_away : g ∉ starts := open_away (gap g le_rfl (by omega))
  have gap_rest := (area_held held).1 gap
  simp only [answer]
  generalize is : unitsFor (originalBaseAddress - 0x10000 * s) = d at *
  -- what is free beside the gap
  have beside : ∀ u, sp.Open fLowMemory (fillers starts ++ [⟨g, d⟩]) u ↔
      Rest (sp.Open fLowMemory []) 16 s u ∧ ¬ (g ≤ u ∧ u < g + d) := by
    intro u
    rw [open_append, held]
  have gap_at : NoneLeft (sp.Open fLowMemory []) s d → g = s := by
    intro none_gap
    by_contra other
    exact none_gap g (slot.below_of_area (by decide) gap_rest (by omega)) gap_rest
  rcases alloc_cases sp imageSize fLowMemory (fillers starts ++ [⟨g, d⟩]) with
    ⟨image, nowhere⟩ | ⟨a, size, area, least, image⟩
  · simp only [image]
    refine iff_of_false (result_left gap_away) ?_
    rintro ⟨d', pos, rfl, none_gap, size, -, there⟩
    obtain rfl : d' = d := by rw [← is, ← Nat.mul_sub, Nat.add_sub_cancel_left, unitsFor_mul]
    obtain rfl := gap_at none_gap
    refine nowhere size (g + d') fun u le lt => (beside u).2 ⟨?_, by omega⟩
    exact (slot.rest_iff (by omega)).2 (there u le lt)
  · have units := unitsFor_pos.2 size
    have first := area a le_rfl (by omega)
    obtain ⟨first_rest, first_out⟩ := (beside a).1 first
    have a_away : a ∉ starts := open_away ((held a).2 first_rest)
    have gap_free : osLibDosFreeMem (0x10000 * g)
        (fillers starts ++ [⟨g, d⟩] ++ [⟨a, unitsFor imageSize⟩]) =
          fillers starts ++ [⟨a, unitsFor imageSize⟩] := by
      refine @freeMem_gap _ ⟨g, d⟩ _ (fun c there same => ?_) (by dsimp only; omega)
      obtain ⟨x, inside, rfl⟩ := List.mem_map.1 there
      obtain rfl : x = g := same
      exact gap_away inside
    simp only [image, gap_free]
    rw [result_some (open_pos ((held a).2 first_rest)) few a_away]
    constructor
    · intro same
      refine ⟨a - s, by omega, by omega, ?_⟩
      have gap_is : a - s = d := by
        rw [← is, ← same, ← Nat.mul_sub, unitsFor_mul]
      -- the gap lies in the slot: else the image would have come to the slot
      have gap_is_slot : g = s := by
        by_contra other
        have ends := slot.below_of_area (by decide) gap_rest (by omega)
        have low := least s fun u le lt => (beside u).2 ⟨?_, by omega⟩
        · omega
        · refine (slot.rest_iff le).2 ?_
          by_cases near : u < s + d
          · exact slot.area u le (by omega)
          · exact ((beside u).1 (area u (by omega) (by omega))).1.1
      refine ⟨fun j low left => ?_, size, fun j low left => ?_, ?_⟩
      · rw [gap_is] at low left
        have := gap_least j ((area_held held).2 left)
        omega
      · have := least j fun u le lt => (beside u).2 ⟨left u le lt, by omega⟩
        omega
      · intro u le lt
        exact ((beside u).1 (area u (by omega) (by omega))).1.1
    · rintro ⟨d', pos, rfl, none_gap, -, none_left, there⟩
      obtain rfl : d' = d := by rw [← is, ← Nat.mul_sub, Nat.add_sub_cancel_left, unitsFor_mul]
      obtain rfl := gap_at none_gap
      have low : a ≤ g + d' := by
        refine least (g + d') fun u le lt => (beside u).2 ⟨?_, by omega⟩
        exact (slot.rest_iff (by omega)).2 (there u le lt)
      have notBelow : g ≤ a := by
        by_contra lower
        have area_rest : Area (Rest (sp.Open fLowMemory []) 16 g) a (unitsFor imageSize) :=
          fun u le lt => ((beside u).1 (area u le lt)).1
        exact none_left a (slot.below_of_area (by decide) area_rest (not_le.1 lower)) area_rest
      have : a = g + d' := by omega
      rw [this]

omit held in
theorem Spanned.unique {free : ℕ → Prop} [DecidablePred free] {originalBaseAddress s t : ℕ}
    (spanned : Spanned free originalBaseAddress s) (other : Spanned free originalBaseAddress t) :
    s = t := by
  rcases lt_trichotomy s t with lower | same | higher
  · exact absurd (other.first s spanned.slot lower) (not_lt.2 spanned.reaches)
  · exact same
  · exact absurd (spanned.first t other.slot higher) (not_lt.2 other.reaches)

theorem place_lands (few : starts.length ≤ 4096) (originalBaseAddress imageSize : ℕ)
    (spanned : Spanned (sp.Open fLowMemory []) originalBaseAddress s) :
    AtBase originalBaseAddress imageSize (some (place sp originalBaseAddress imageSize
      (0x10000 * s) fLowMemory (fillerAddresses starts) (fillers starts)).result) ↔
      Lands (sp.Open fLowMemory []) originalBaseAddress imageSize := by
  have lands : Lands (sp.Open fLowMemory []) originalBaseAddress imageSize ↔
      (originalBaseAddress = 0x10000 * s ∧
        (0 < imageSize → LandsAt (sp.Open fLowMemory []) s imageSize)) ∨
      ∃ d, 0 < d ∧ originalBaseAddress = 0x10000 * (s + d) ∧
        LandsAbove (sp.Open fLowMemory []) s d imageSize := by
    refine ⟨fun all => all s spanned, fun here t other => ?_⟩
    rwa [← spanned.unique other]
  rw [lands]
  rcases spanned.below.eq_or_lt with rfl | above
  · rw [place_at held spanned.slot few]
    constructor
    · exact fun there => .inl ⟨rfl, there⟩
    · rintro (⟨-, there⟩ | ⟨d, pos, same, -⟩)
      · exact there
      · omega
  · rw [place_above held spanned.slot few _ _ above spanned.reaches]
    constructor
    · exact .inr
    · rintro (⟨same, -⟩ | there)
      · omega
      · exact there

end

/-! ## The loop -/

/-- The blocks of the loop are in the slots below `s`; they end below the base. -/
structure Filled (sp : Space) (fLowMemory : Bool) (originalBaseAddress : ℕ) (starts : List ℕ)
    (s : ℕ) : Prop where
  held : ∀ u, sp.Open fLowMemory (fillers starts) u ↔ Rest (sp.Open fLowMemory []) 16 s u
  first : ∀ t, Slot (sp.Open fLowMemory []) 16 t → t < s →
    0x10000 * t + fallocSize < originalBaseAddress
  count : ∀ t, Slot (sp.Open fLowMemory []) 16 t → s ≤ t → 16 * starts.length < t
  few : starts.length < 4096

theorem filled_zero (sp : Space) (fLowMemory : Bool) (originalBaseAddress : ℕ) :
    Filled sp fLowMemory originalBaseAddress [] 0 := by
  refine ⟨fun u => (rest_zero u).symm, fun t _ lt => absurd lt (Nat.not_lt_zero t), ?_, by decide⟩
  intro t slot _
  exact open_pos (slot.area t le_rfl (by omega))

section

variable {sp : Space} {fLowMemory : Bool} {originalBaseAddress s a : ℕ} {starts : List ℕ}

theorem slot_word (slot : Slot (sp.Open fLowMemory []) 16 a) : a + 16 < 0x10000 := by
  have inside := (open_iff.1 (slot.area (a + 15) (by omega) (by omega))).2.1
  have top := (sp.arena fLowMemory).top
  omega

theorem Filled.spanned_ge (filled : Filled sp fLowMemory originalBaseAddress starts s) {t : ℕ}
    (spanned : Spanned (sp.Open fLowMemory []) originalBaseAddress t) : s ≤ t := by
  by_contra lower
  exact absurd (filled.first t spanned.slot (not_le.1 lower)) (not_lt.2 spanned.reaches)

theorem Filled.next (filled : Filled sp fLowMemory originalBaseAddress starts s)
    (slot : Slot (sp.Open fLowMemory []) 16 a) (above : s ≤ a)
    (next : ∀ t, Slot (sp.Open fLowMemory []) 16 t → t < a → t < s)
    (below : 0x10000 * a + fallocSize < originalBaseAddress) :
    Filled sp fLowMemory originalBaseAddress (starts ++ [a]) (a + 1) := by
  have count := filled.count a slot above
  have word := slot_word slot
  refine ⟨fun u => ?_, fun t slot' lt => ?_, fun t slot' le => ?_, ?_⟩
  · rw [rest_succ slot above next, ← filled.held, fillers, List.map_append, ← fillers]
    exact open_append
  · rcases (Nat.le_of_lt_succ lt).lt_or_eq with lower | rfl
    · exact filled.first t slot' (next t slot' lower)
    · exact below
  · have := slot.apart slot' le
    rw [List.length_append, List.length_singleton]
    omega
  · rw [List.length_append, List.length_singleton]
    omega

theorem fillLoop_lands (imageSize fuel : ℕ)
    (filled : Filled sp fLowMemory originalBaseAddress starts s)
    (enough : 4096 ≤ fuel + starts.length) :
    AtBase originalBaseAddress imageSize
      ((fillLoop sp originalBaseAddress imageSize fLowMemory fuel (fillerAddresses starts)
        (fillers starts)).map Outcome.result) ↔
      Lands (sp.Open fLowMemory []) originalBaseAddress imageSize := by
  induction fuel generalizing starts s with
  | zero =>
    have := filled.few
    omega
  | succ fuel ih =>
    rw [fillLoop]
    rcases alloc_cases sp fallocSize fLowMemory (fillers starts) with
      ⟨answer, nowhere⟩ | ⟨a, size, area, least, answer⟩
    · simp only [answer]
      refine iff_of_true (result_none filled.few.le) fun t spanned => ?_
      have above := filled.spanned_ge spanned
      exact absurd ((area_held filled.held).2 (spanned.slot.rest above))
        (nowhere (by decide) t)
    · have units : unitsFor fallocSize = 16 := rfl
      rw [units] at area least answer
      obtain ⟨slot, above, next⟩ := rest_lowest (by decide) ((area_held filled.held).1 area)
        fun b left => least b ((area_held filled.held).2 left)
      have word := slot_word slot
      have noWrap : add32 (0x10000 * a) fallocSize = 0x10000 * a + fallocSize :=
        add32_of_lt (by unfold fallocSize; omega)
      have freed : osLibDosFreeMem (0x10000 * a) (fillers starts ++ [⟨a, 16⟩]) =
          fillers starts := by
        refine freeMem_append (b := ⟨a, 16⟩) fun c there same => ?_
        obtain ⟨x, inside, rfl⟩ := List.mem_map.1 there
        obtain rfl : x = a := same
        exact open_away (area x le_rfl (by omega)) inside
      simp only [answer, noWrap, freed]
      by_cases reaches : originalBaseAddress ≤ 0x10000 * a + fallocSize
      · rw [if_pos reaches]
        by_cases passed : originalBaseAddress < 0x10000 * a
        · rw [if_pos passed]
          refine iff_of_true (result_none filled.few.le) fun t spanned => ?_
          have spanned_above := filled.spanned_ge spanned
          have below := spanned.below
          have := next t spanned.slot (by omega)
          omega
        · rw [if_neg passed]
          refine place_lands (fun u => (filled.held u).trans (rest_next above next).symm)
            filled.few.le _ _ ⟨slot, reaches, fun t slot' lt => ?_, not_lt.1 passed⟩
          exact filled.first t slot' (next t slot' lt)
      · rw [if_neg reaches]
        have further := ih (filled.next slot above next (not_le.1 reaches))
          (by rw [List.length_append, List.length_singleton]; omega)
        rwa [fillerAddresses, fillers, List.map_append, List.map_append, ← fillerAddresses,
          ← fillers] at further

end

/-- `allocFixedMem` is right exactly where the free memory makes the image come to the base. -/
theorem allocFixedMem_lands (sp : Space) (fMalloc : Bool) (originalBaseAddress imageSize : ℕ) :
    AtBase originalBaseAddress imageSize
      (allocFixedMem sp fMalloc originalBaseAddress imageSize) ↔
      fMalloc = false ∨
      Lands (sp.Open (originalBaseAddress < 512 * 1024 * 1024) []) originalBaseAddress
        imageSize := by
  cases fMalloc with
  | false => exact iff_of_true ⟨by simp, by simp, rfl⟩ (.inl rfl)
  | true =>
    rw [allocFixedMem, if_pos rfl]
    have run := fillLoop_lands imageSize 4096
      (filled_zero sp (originalBaseAddress < 512 * 1024 * 1024) originalBaseAddress) (by decide)
    exact run.trans (by simp)

/-- The memory of a process below and above 512MB, with eleven units in use above 4MB. -/
def usedAbove : Space where
  low := ⟨1, 0x2000, of_decide_eq_true rfl, of_decide_eq_true rfl⟩
  high := ⟨0x2000, 0xc000, of_decide_eq_true rfl, of_decide_eq_true rfl⟩
  taken := fun u => 0x46 ≤ u && u ≤ 0x50

theorem usedAbove_elsewhere :
    allocFixedMem usedAbove true 0x400000 0xa0000 =
      some ⟨true, 0x510000, 3, [⟨0x51, 10⟩]⟩ := by
  decide +kernel

theorem fixed_not_atBase :
    ¬ ∀ (sp : Space) (fMalloc : Bool) (originalBaseAddress imageSize : ℕ),
      AtBase originalBaseAddress imageSize
        (allocFixedMem sp fMalloc originalBaseAddress imageSize) := by
  simp only [not_forall]
  refine ⟨usedAbove, true, 0x400000, 0xa0000, ?_⟩
  simp [usedAbove_elsewhere, AtBase]

end Odin32.FixedMem
