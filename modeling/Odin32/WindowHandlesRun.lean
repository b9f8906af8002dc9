import Odin32.WindowHandles
import Mathlib.Tactic.Common

/-! # Runs of the window handle table

A search that begins above the free slots fails, and the walk over the handle values ends one
before the last handle. -/

set_option autoImplicit false

namespace Odin32.WindowHandles

variable {s s' : State} {live : Live} {op : Op}

/-! ## Handle values -/

theorem toNat_handleOf {i : ℕ} (lt : i < maxWindowHandles) :
    (handleOf i).toNat = 0x68000001 + i := by
  have small : i + 1 < 2 ^ 27 := by
    rw [maxWindowHandles] at lt
    omega
  have magic : wndhandleMagicHighword.toNat = 13 <<< 27 := rfl
  rw [handleOf, UInt32.toNat_or, magic, UInt32.toNat_ofNat',
    Nat.mod_eq_of_lt (Nat.lt_trans small (by decide)), Nat.or_comm,
    ← Nat.shiftLeft_add_eq_or_of_lt small]
  omega

theorem and_mask (x : UInt32) : (x &&& wndhandleMagicMask).toNat = x.toNat % 0x10000 := by
  rw [UInt32.toNat_and]
  exact Nat.and_two_pow_sub_one_eq_mod x.toNat 16

theorem and_highword (x : UInt32) :
    x &&& 0xFFFF0000 = wndhandleMagicHighword ↔ x.toNat / 0x10000 = 0x6800 := by
  have high : (x.toNat &&& 0xFFFF0000) / 2 ^ 16 = x.toNat / 0x10000 := by
    rw [Nat.and_div_two_pow, show 0xFFFF0000 / 2 ^ 16 = 2 ^ 16 - 1 from rfl,
      Nat.and_two_pow_sub_one_eq_mod]
    have := x.toNat_lt
    omega
  have low : (x.toNat &&& 0xFFFF0000) % 2 ^ 16 = 0 := by
    rw [Nat.and_mod_two_pow, show 0xFFFF0000 % 2 ^ 16 = 0 from rfl, Nat.and_zero]
  rw [← UInt32.toNat_inj, UInt32.toNat_and, show (0xFFFF0000 : UInt32).toNat = 0xFFFF0000 from rfl,
    show wndhandleMagicHighword.toNat = 0x68000000 from rfl]
  omega

/-- The slot of a handle value. -/
def slotOf (hwnd : HWND) : Option ℕ :=
  if (hwnd - 1) &&& 0xFFFF0000 = wndhandleMagicHighword ∧
      ((hwnd - 1) &&& wndhandleMagicMask).toNat < maxWindowHandles then
    some ((hwnd - 1) &&& wndhandleMagicMask).toNat
  else none

theorem slotOf_eq_some {h : HWND} {i : ℕ} :
    slotOf h = some i ↔ i < maxWindowHandles ∧ h = handleOf i := by
  have lt := h.toNat_lt
  have sub : (h - 1).toNat = (2 ^ 32 - 1 + h.toNat) % 2 ^ 32 := UInt32.toNat_sub h 1
  have max : maxWindowHandles = 1024 := rfl
  simp only [slotOf, and_highword, and_mask]
  constructor
  · intro eq
    split_ifs at eq with inside
    obtain ⟨high, low⟩ := inside
    have slot : (h - 1).toNat % 0x10000 = i := Option.some.inj eq
    refine ⟨slot ▸ low, UInt32.toNat_inj.mp ?_⟩
    rw [toNat_handleOf (slot ▸ low)]
    omega
  · rintro ⟨small, rfl⟩
    rw [toNat_handleOf small] at sub lt
    have high : (handleOf i - 1).toNat / 0x10000 = 0x6800 := by omega
    have low : (handleOf i - 1).toNat % 0x10000 = i := by omega
    rw [if_pos ⟨high, low.symm ▸ small⟩, low]

theorem slotOf_handleOf {i : ℕ} (lt : i < maxWindowHandles) : slotOf (handleOf i) = some i :=
  slotOf_eq_some.mpr ⟨lt, rfl⟩

/-- What the table holds for a handle value. -/
def State.held (s : State) : Live := fun hwnd =>
  (slotOf hwnd).bind fun i =>
    if s.WindowHandleTable i = 0 then none else some (s.WindowHandleTable i)

theorem State.held_handleOf {i : ℕ} (lt : i < maxWindowHandles) : s.held (handleOf i) =
    if s.WindowHandleTable i = 0 then none else some (s.WindowHandleTable i) := by
  rw [State.held, slotOf_handleOf lt]
  rfl

theorem held_update {i : ℕ} (lt : i < maxWindowHandles) (value : DWORD) (lastIndex : ℕ) :
    State.held ⟨Function.update s.WindowHandleTable i value, lastIndex⟩ =
      Function.update s.held (handleOf i) (if value = 0 then none else some value) := by
  funext h
  by_cases eq : h = handleOf i
  · subst eq
    rw [Function.update_self, State.held_handleOf lt]
    simp only [Function.update_self]
  · rw [Function.update_of_ne eq, State.held, State.held]
    cases slot : slotOf h with
    | none => rfl
    | some j =>
      have ne : j ≠ i := by
        rintro rfl
        exact eq (slotOf_eq_some.mp slot).2
      simp only [Option.bind_some, Function.update_of_ne ne]

theorem hwGetWindowHandleData_spec (s : State) (h : HWND) :
    ∃ answer, hwGetWindowHandleData s h = some answer ∧ dataOf answer = s.held h := by
  by_cases high : (h - 1) &&& 0xFFFF0000 = wndhandleMagicHighword
  · by_cases low : ((h - 1) &&& wndhandleMagicMask).toNat < maxWindowHandles
    · have slot : slotOf h = some ((h - 1) &&& wndhandleMagicMask).toNat := if_pos ⟨high, low⟩
      refine ⟨(true, some (s.WindowHandleTable ((h - 1) &&& wndhandleMagicMask).toNat)), ?_, ?_⟩
      · rw [hwGetWindowHandleData, if_neg (not_not.mpr high)]
        simp only [State.read, if_pos low]
        rfl
      · rw [State.held, slot]
        rfl
    · have slot : slotOf h = none := if_neg fun both => low both.2
      refine ⟨(false, some 0), ?_, ?_⟩
      · rw [hwGetWindowHandleData, if_neg (not_not.mpr high)]
        simp only [if_neg low]
      · rw [State.held, slot]
        rfl
  · have slot : slotOf h = none := if_neg fun both => high both.1
    refine ⟨(false, none), if_pos high, ?_⟩
    rw [State.held, slot]
    rfl

/-! ## The search -/

theorem start_lt (s : State) : s.start < maxWindowHandles := by
  have max : maxWindowHandles = 1024 := rfl
  rw [State.start]
  split_ifs <;> omega

theorem findFree_spec (s : State) {n i : ℕ} (total : i + n = maxWindowHandles) :
    ∃ j, s.findFree n i = some j ∧ i ≤ j ∧ j ≤ maxWindowHandles ∧
      (j < maxWindowHandles → s.WindowHandleTable j = 0) ∧
      ∀ k, i ≤ k → k < j → s.WindowHandleTable k ≠ 0 := by
  induction n generalizing i with
  | zero =>
    refine ⟨i, rfl, Nat.le_refl i, Nat.le_of_eq total, fun lt => absurd total (by omega), ?_⟩
    intro k le lt
    omega
  | succ n ih =>
    have inside : i < maxWindowHandles := by omega
    by_cases here : s.WindowHandleTable i = 0
    · refine ⟨i, ?_, Nat.le_refl i, Nat.le_of_lt inside, fun _ => here, ?_⟩
      · simp [State.findFree, State.read, inside, here]
      · intro k le lt
        omega
    · obtain ⟨j, found, le, most, free, before⟩ := ih (i := i + 1) (by omega)
      refine ⟨j, ?_, by omega, most, free, fun k from_i lt => ?_⟩
      · simpa [State.findFree, State.read, inside, here] using found
      · by_cases first : k = i
        · rwa [first]
        · exact before k (by omega) lt

theorem hwAllocateWindowHandle_cases (s : State) (dwUserData : DWORD) :
    (∃ i, s.start ≤ i ∧ i < maxWindowHandles ∧ s.WindowHandleTable i = 0 ∧
      (∀ k, s.start ≤ k → k < i → s.WindowHandleTable k ≠ 0) ∧
      hwAllocateWindowHandle s dwUserData =
        some (⟨Function.update s.WindowHandleTable i dwUserData, i + 1⟩, some (handleOf i))) ∨
    ¬ HasFree s s.start ∧
      hwAllocateWindowHandle s dwUserData = some ({ s with lastIndex := s.start }, none) := by
  have start := start_lt s
  obtain ⟨i, found, le, most, free, before⟩ :=
    findFree_spec { s with lastIndex := s.start } (n := maxWindowHandles - s.start)
      (i := s.start) (by omega)
  by_cases full : i = maxWindowHandles
  · refine Or.inr ⟨?_, ?_⟩
    · rintro ⟨k, from_start, inside, free'⟩
      exact before k from_start (by omega) free'
    · simp [hwAllocateWindowHandle, found, full]
  · have inside : i < maxWindowHandles := by omega
    refine Or.inl ⟨i, le, inside, free inside, before, ?_⟩
    simp [hwAllocateWindowHandle, found, full, State.write, inside]

/-! ## The walk -/

theorem enumFrom_some (s : State) (goesOn : HWND → Bool) (n : ℕ) (hwnd : HWND) :
    ∃ hwnds, enumFrom s goesOn n hwnd = some hwnds ∧ ((∀ h, goesOn h = true) →
      ∀ h, h ∈ hwnds ↔ ∃ k, k < n ∧ h = hwnd + UInt32.ofNat k) := by
  induction n generalizing hwnd with
  | zero => exact ⟨[], rfl, fun _ h => by simp⟩
  | succ n ih =>
    obtain ⟨answer, got, -⟩ := hwGetWindowHandleData_spec s hwnd
    obtain ⟨hwnds, walked, all⟩ := ih (hwnd + 1)
    by_cases stops : ((dataOf answer).isSome && !goesOn hwnd) = true
    · refine ⟨[hwnd], ?_, fun goes => ?_⟩
      · simp only [enumFrom, got, Option.bind_eq_bind, Option.bind_some, if_pos stops]
        rfl
      · rw [goes hwnd] at stops
        simp at stops
    · refine ⟨hwnd :: hwnds, ?_, fun goes h => ?_⟩
      · simp only [enumFrom, got, walked, Option.bind_eq_bind, Option.bind_some, if_neg stops]
        rfl
      rw [List.mem_cons, all goes h]
      constructor
      · rintro (rfl | ⟨k, lt, rfl⟩)
        · exact ⟨0, Nat.succ_pos n, by simp⟩
        · refine ⟨k + 1, Nat.succ_lt_succ lt, ?_⟩
          rw [UInt32.ofNat_add, UInt32.add_comm (UInt32.ofNat k), ← UInt32.add_assoc]
          rfl
      · rintro ⟨k, lt, rfl⟩
        cases k with
        | zero => exact Or.inl (by simp)
        | succ k =>
          refine Or.inr ⟨k, Nat.lt_of_succ_lt_succ lt, ?_⟩
          rw [UInt32.ofNat_add, UInt32.add_comm (UInt32.ofNat k), ← UInt32.add_assoc]
          rfl

theorem enumWindows_spec (s : State) (goesOn : HWND → Bool) :
    ∃ hwnds, enumWindows s goesOn = some hwnds ∧ ((∀ h, goesOn h = true) →
      ∀ i, i < maxWindowHandles → (handleOf i ∈ hwnds ↔ i ≠ maxWindowHandles - 1)) := by
  obtain ⟨hwnds, walked, all⟩ := enumFrom_some s goesOn maxWindowHandles wndhandleMagicHighword
  refine ⟨hwnds, walked, fun goes i lt => ?_⟩
  have max : maxWindowHandles = 1024 := rfl
  have value : ∀ k, k < maxWindowHandles →
      (wndhandleMagicHighword + UInt32.ofNat k).toNat = 0x68000000 + k := by
    intro k small
    have magic : wndhandleMagicHighword.toNat = 0x68000000 := rfl
    rw [UInt32.toNat_add, UInt32.toNat_ofNat', magic]
    omega
  have handle := toNat_handleOf lt
  rw [all goes]
  constructor
  · rintro ⟨k, small, eq⟩
    have same := congrArg UInt32.toNat eq
    rw [handle, value k small] at same
    omega
  · intro ne
    have small : i + 1 < maxWindowHandles := by omega
    refine ⟨i + 1, small, UInt32.toNat_inj.mp ?_⟩
    rw [handle, value (i + 1) small]
    omega

/-! ## Calls -/

theorem step_spec (s : State) (offered : Offered s.held op) :
    ∃ s' answer, step s op = some (s', answer) ∧ (Right s s.held op answer ↔ StepFits s op) ∧
      s'.held = after s.held op answer := by
  cases op with
  | allocate dwUserData =>
    rcases hwAllocateWindowHandle_cases s dwUserData with
      ⟨i, from_start, inside, free, -, allocated⟩ | ⟨full, failed⟩
    · refine ⟨⟨Function.update s.WindowHandleTable i dwUserData, i + 1⟩,
        .allocated (some (handleOf i)), by rw [step, allocated]; rfl, ?_, ?_⟩
      · refine iff_of_true ⟨fun _ => by simp, fun h eq => ?_⟩
          fun _ => ⟨i, from_start, inside, free⟩
        rw [← Option.some.inj eq, State.held_handleOf inside, if_pos free]
      · have given : dwUserData ≠ 0 := offered
        rw [held_update inside, if_neg given]
        rfl
    · refine ⟨⟨s.WindowHandleTable, s.start⟩, .allocated none, by rw [step, failed]; rfl, ?_, rfl⟩
      constructor
      · intro right free
        exact absurd rfl (right.1 free)
      · intro fits
        refine ⟨fun free => absurd (fits free) full, fun h eq => ?_⟩
        cases eq
  | free hwnd =>
    obtain ⟨i, slot⟩ : ∃ i, slotOf hwnd = some i := by
      cases slot : slotOf hwnd with
      | none => exact absurd (by rw [State.held, slot]; rfl) (show s.held hwnd ≠ none from offered)
      | some i => exact ⟨i, rfl⟩
    obtain ⟨inside, rfl⟩ := slotOf_eq_some.mp slot
    have index : ((handleOf i - 1) &&& wndhandleMagicMask).toNat = i := by
      rw [slotOf] at slot
      split_ifs at slot
      exact Option.some.inj slot
    refine ⟨⟨Function.update s.WindowHandleTable i 0, s.lastIndex⟩, .freed, ?_,
      iff_of_true trivial trivial, ?_⟩
    · simp only [step, hwFreeWindowHandle, index, if_pos inside, State.write, Option.map_some]
    · exact held_update inside 0 s.lastIndex
  | getData hwnd =>
    obtain ⟨answer, got, data⟩ := hwGetWindowHandleData_spec s hwnd
    exact ⟨s, .data answer, by rw [step, got]; rfl, iff_of_true data trivial, rfl⟩
  | enumWindows goesOn =>
    obtain ⟨hwnds, walked, all⟩ := enumWindows_spec s goesOn
    refine ⟨s, .looked hwnds, by rw [step, walked]; rfl, ?_, rfl⟩
    have last : maxWindowHandles - 1 < maxWindowHandles := by decide
    constructor
    · intro right goes
      by_contra taken
      have live : s.held (handleOf (maxWindowHandles - 1)) ≠ none := by
        rw [State.held_handleOf last, if_neg taken]
        simp
      exact (all goes _ last).mp (right goes _ live) rfl
    · intro fits goes h live
      obtain ⟨i, slot⟩ : ∃ i, slotOf h = some i := by
        cases slot : slotOf h with
        | none => exact absurd (by rw [State.held, slot]; rfl) live
        | some i => exact ⟨i, rfl⟩
      obtain ⟨inside, rfl⟩ := slotOf_eq_some.mp slot
      refine (all goes i inside).mpr ?_
      rintro rfl
      rw [State.held_handleOf last, if_pos (fits goes)] at live
      exact live rfl

theorem held_init : State.init.held = fun _ => none := by
  funext h
  rw [State.held]
  cases slotOf h <;> rfl

/-! ## Runs -/

theorem runPromised_iff_from (ops : List Op) (s : State) (offered : RunOffered s s.held ops) :
    RunPromised s s.held ops ↔ RunFits s ops := by
  induction ops generalizing s with
  | nil => exact Iff.rfl
  | cons op ops ih =>
    obtain ⟨s', answer, stepped, right, held⟩ := step_spec s offered.1
    have offered' := offered.2 s' answer stepped
    rw [← held] at offered'
    have rest := ih s' offered'
    rw [held] at rest
    constructor
    · rintro ⟨t, answer', stepped', here, later⟩
      obtain ⟨rfl, rfl⟩ := Prod.mk.inj (Option.some.inj (stepped.symm.trans stepped'))
      refine ⟨right.mp here, fun t' answer'' again => ?_⟩
      obtain ⟨rfl, -⟩ := Prod.mk.inj (Option.some.inj (stepped.symm.trans again))
      exact rest.mp later
    · rintro ⟨fits, later⟩
      exact ⟨s', answer, stepped, right.mpr fits, rest.mpr (later s' answer stepped)⟩

/-- The handles are unique and all usable exactly over the runs whose searches begin below a
free slot and whose walks meet a free last slot. -/
theorem windowHandles_promised_iff (ops : List Op)
    (offered : RunOffered State.init (fun _ => none) ops) :
    RunPromised State.init (fun _ => none) ops ↔ RunFits State.init ops := by
  rw [← held_init] at offered ⊢
  exact runPromised_iff_from ops State.init offered

/-- One window comes, is looked up and goes, and another one comes. -/
def fewWindows : List Op :=
  [.allocate 0x1000, .getData 0x68000001, .free 0x68000001, .getData 0x68000001, .allocate 0x2000,
    .enumWindows fun _ => true]

theorem fewWindows_offered : RunOffered State.init (fun _ => none) fewWindows := by
  refine ⟨show (0x1000 : DWORD) ≠ 0 by decide, ?_⟩
  rintro _ _ ⟨⟩
  refine ⟨trivial, ?_⟩
  rintro _ _ ⟨⟩
  refine ⟨show some (0x1000 : DWORD) ≠ none by simp, ?_⟩
  rintro _ _ ⟨⟩
  refine ⟨trivial, ?_⟩
  rintro _ _ ⟨⟩
  refine ⟨show (0x2000 : DWORD) ≠ 0 by decide, ?_⟩
  rintro _ _ ⟨⟩
  exact ⟨trivial, fun _ _ _ => trivial⟩

theorem fewWindows_fits : RunFits State.init fewWindows := by
  refine ⟨id, ?_⟩
  rintro _ _ ⟨⟩
  refine ⟨trivial, ?_⟩
  rintro _ _ ⟨⟩
  refine ⟨trivial, ?_⟩
  rintro _ _ ⟨⟩
  refine ⟨trivial, ?_⟩
  rintro _ _ ⟨⟩
  refine ⟨fun _ => ⟨2, by decide, by decide, rfl⟩, ?_⟩
  rintro _ _ ⟨⟩
  exact ⟨fun _ => rfl, fun _ _ _ => trivial⟩

theorem windowHandles_promised_fewWindows :
    RunPromised State.init (fun _ => none) fewWindows :=
  (windowHandles_promised_iff fewWindows fewWindows_offered).mpr fewWindows_fits

/-! ## A full table -/

/-- The table after `n` allocations. -/
def filled (n : ℕ) : State := ⟨fun i => if i < n then 1 else 0, n⟩

theorem allocate_filled {n : ℕ} (lt : n < maxWindowHandles) :
    step (filled n) (.allocate 1) =
      some (filled (n + 1), .allocated (some (handleOf n))) := by
  have start : (filled n).start ≤ n := by
    rw [State.start]
    split_ifs
    · exact Nat.zero_le n
    · exact Nat.le_refl n
  have free : (filled n).WindowHandleTable n = 0 := if_neg (Nat.lt_irrefl n)
  rcases hwAllocateWindowHandle_cases (filled n) 1 with
    ⟨i, -, -, free', before, allocated⟩ | ⟨full, -⟩
  · have le : n ≤ i := by
      by_contra below
      have taken : (filled n).WindowHandleTable i = 1 := if_pos (by omega)
      exact absurd (taken.symm.trans free') (by decide)
    have ge : i ≤ n := by
      by_contra above
      exact before n start (by omega) free
    obtain rfl : i = n := by omega
    have table : Function.update (filled i).WindowHandleTable i 1 =
        (filled (i + 1)).WindowHandleTable := by
      funext k
      by_cases eq : k = i
      · subst eq
        simp [filled]
      · have same : k < i + 1 ↔ k < i := by omega
        simp only [Function.update_of_ne eq, filled, same]
    rw [step, allocated, table]
    rfl
  · exact absurd ⟨n, start, lt, free⟩ full

/-- The window of the first handle is closed and opened again, and then closed for another one
that is to be opened. -/
def reopened : List Op :=
  [.free (handleOf 0), .allocate 1, .free (handleOf 0), .allocate 1]

def exhausted : List Op := List.replicate maxWindowHandles (.allocate 1) ++ reopened

theorem runOffered_fill {n k : ℕ} (total : n + k = maxWindowHandles) {ops : List Op}
    (offered : RunOffered (filled maxWindowHandles) (filled maxWindowHandles).held ops) :
    RunOffered (filled k) (filled k).held (List.replicate n (.allocate 1) ++ ops) := by
  induction n generalizing k with
  | zero =>
    obtain rfl : k = maxWindowHandles := by omega
    exact offered
  | succ n ih =>
    rw [List.replicate_succ]
    refine ⟨show (1 : DWORD) ≠ 0 by decide, fun s' answer stepped => ?_⟩
    rw [allocate_filled (by omega)] at stepped
    obtain ⟨rfl, rfl⟩ := Prod.mk.inj (Option.some.inj stepped)
    obtain ⟨_, _, stepped', -, held⟩ := step_spec (filled k)
      (show Offered (filled k).held (.allocate 1) from show (1 : DWORD) ≠ 0 by decide)
    rw [allocate_filled (by omega)] at stepped'
    obtain ⟨rfl, rfl⟩ := Prod.mk.inj (Option.some.inj stepped')
    rw [← held]
    exact ih (by omega)

theorem runFits_fill {n k : ℕ} (total : n + k = maxWindowHandles) {ops : List Op}
    (fits : RunFits (filled k) (List.replicate n (.allocate 1) ++ ops)) :
    RunFits (filled maxWindowHandles) ops := by
  induction n generalizing k with
  | zero =>
    obtain rfl : k = maxWindowHandles := by omega
    exact fits
  | succ n ih =>
    rw [List.replicate_succ] at fits
    exact ih (by omega) (fits.2 _ _ (allocate_filled (by omega)))

theorem held_filled_first :
    (filled maxWindowHandles).held (handleOf 0) ≠ none := by
  rw [State.held_handleOf (by decide)]
  simp [filled, maxWindowHandles]

theorem reopened_offered :
    RunOffered (filled maxWindowHandles) (filled maxWindowHandles).held reopened := by
  refine ⟨held_filled_first, ?_⟩
  rintro _ _ ⟨⟩
  refine ⟨show (1 : DWORD) ≠ 0 by decide, ?_⟩
  rintro _ _ ⟨⟩
  refine ⟨show some (1 : DWORD) ≠ none by simp, ?_⟩
  rintro _ _ ⟨⟩
  exact ⟨show (1 : DWORD) ≠ 0 by decide, fun _ _ _ => trivial⟩

theorem reopened_not_fits : ¬ RunFits (filled maxWindowHandles) reopened := by
  intro fits
  have last := (((fits.2 _ _ rfl).2 _ _ rfl).2 _ _ rfl).1
  obtain ⟨i, above, below, free⟩ := last ⟨0, Nat.le_refl 0, by decide, rfl⟩
  have above' : 1 ≤ i := above
  have ne : i ≠ 0 := by omega
  have table : Function.update (Function.update (Function.update
      (filled maxWindowHandles).WindowHandleTable 0 0) 0 1) 0 0 i = 0 := free
  have taken : (filled maxWindowHandles).WindowHandleTable i = 1 := if_pos below
  rw [Function.update_of_ne ne, Function.update_of_ne ne, Function.update_of_ne ne, taken] at table
  exact absurd table (by decide)

/-- With all slots above the cursor taken, a free one below it is not found. -/
theorem exhausted_not_promised :
    ¬ ∀ ops, RunOffered State.init (fun _ => none) ops →
      RunPromised State.init (fun _ => none) ops := by
  intro all
  have empty : filled 0 = State.init := by
    rw [filled, State.init]
    simp
  have offered := runOffered_fill (n := maxWindowHandles) (k := 0) rfl reopened_offered
  rw [empty] at offered
  have promised := all exhausted (by rwa [← held_init])
  rw [← held_init] at promised
  have fits := (runPromised_iff_from exhausted State.init offered).mp promised
  rw [← empty] at fits
  exact reopened_not_fits (runFits_fill (n := maxWindowHandles) (k := 0) rfl fits)

end Odin32.WindowHandles
