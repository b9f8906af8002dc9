import Odin32.HandlesRun

/-! # The slot a handle stands for

`_HMHandleQuery` maps the standard handles to the entries they were set to. Three calls check the
entry that is found so, and index the table with the handle itself. -/

set_option autoImplicit false

namespace Odin32.Handles

/-- `HMHandleTranslateToOS2`: the OS/2 handle, `none` is `ERROR_INVALID_HANDLE`. The table is
indexed with the handle that was validated, standard or not. -/
def hmHandleTranslateToOS2 (hHandle16 : ℕ) (hm : HandleManager) : Except Fault (Option ℕ) :=
  if hmHandleValidate hm hHandle16 = false then .ok none
  else if maxOs2HmHandles ≤ hHandle16 then .error .outsideTable
  else .ok (some (hm.data hHandle16).hHMHandle)

/-- `HMHandleGetUserData`: -1 for no handle. It goes on with the entry that a standard handle was
set to. -/
def hmHandleGetUserData (hHandle : ℕ) (hm : HandleManager) : Except Fault ℕ :=
  match hm.translate hHandle with
  | none => .ok 0xffffffff
  | some hHandle =>
    if maxOs2HmHandles ≤ hHandle then .error .outsideTable
    else if hm.free hHandle then .ok 0xffffffff
    else .ok (hm.data hHandle).dwUserData

/-- The call does to the slot that the handle stands for what it is to do, and fails where there is
none. -/
def ActsOnSlot {α : Type} (hm : HandleManager) (hHandle : ℕ) (call : Except Fault α) (failed : α)
    (act : ℕ → Except Fault α) : Prop :=
  call = (hmHandleQuery hm hHandle).elim (.ok failed) act

/-- The handle is an index into the table, or stands for no slot. -/
def Direct (hm : HandleManager) (hHandle : ℕ) : Prop :=
  hHandle < maxOs2HmHandles ∨ hmHandleQuery hm hHandle = none

variable {hm : HandleManager} {hHandle i : ℕ}

theorem translate_of_lt (inside : hHandle < maxOs2HmHandles) :
    hm.translate hHandle = some hHandle := if_pos inside

theorem translate_lt (found : hm.translate hHandle = some i) : i < maxOs2HmHandles := by
  unfold HandleManager.translate at found
  split at found
  · next inside => rwa [← Option.some.inj found]
  · exact of_decide_eq_true (Option.filter_eq_some_iff.1 found).2

theorem query_of_lt (inside : hHandle < maxOs2HmHandles) (found : hmHandleQuery hm hHandle = some i) :
    i = hHandle := by
  have is := (hmHandleQuery_some found).1
  rw [translate_of_lt inside] at is
  exact (Option.some.inj is).symm

theorem query_self (found : hmHandleQuery hm hHandle = some i) :
    i < maxOs2HmHandles ∧ hmHandleQuery hm i = some i := by
  obtain ⟨is, used⟩ := hmHandleQuery_some found
  have inside := translate_lt is
  refine ⟨inside, ?_⟩
  rw [hmHandleQuery, translate_of_lt inside]
  exact Option.filter_eq_some_iff.2 ⟨rfl, by simpa using used⟩

theorem validate_of_none (none : hmHandleQuery hm hHandle = none) :
    hmHandleValidate hm hHandle = false := by
  simp [hmHandleValidate, none]

theorem validate_of_query (found : hmHandleQuery hm hHandle = some i) :
    ¬ hmHandleValidate hm hHandle = false := by
  simp [hmHandleValidate, found]

/-- A call that validates a handle and then goes on with that same handle acts on the slot exactly
where the handle is direct. -/
theorem actsOnSlot_iff_direct {α : Type} (call : ℕ → Except Fault α) {failed : α}
    {act : ℕ → Except Fault α}
    (invalid : hmHandleQuery hm hHandle = none → call hHandle = .ok failed)
    (outside : ∀ i, hmHandleQuery hm hHandle = some i → maxOs2HmHandles ≤ hHandle →
      call hHandle = .error .outsideTable)
    (inside : ∀ i, hmHandleQuery hm hHandle = some i → hHandle < maxOs2HmHandles →
      call hHandle = act hHandle)
    (keeps : ∀ i, hmHandleQuery hm hHandle = some i → act i ≠ .error .outsideTable) :
    ActsOnSlot hm hHandle (call hHandle) failed act ↔ Direct hm hHandle := by
  unfold ActsOnSlot Direct
  cases found : hmHandleQuery hm hHandle with
  | none => exact iff_of_true (invalid found) (.inr rfl)
  | some i =>
    rw [Option.elim_some]
    rcases Nat.lt_or_ge hHandle maxOs2HmHandles with low | high
    · obtain rfl := query_of_lt low found
      exact iff_of_true (inside i found low) (.inl low)
    · rw [outside i found high]
      refine iff_of_false (fun same => keeps i found same.symm) ?_
      rintro (low | none)
      · exact absurd low (Nat.not_lt.2 high)
      · cases none

theorem translateToOS2_iff (hm : HandleManager) (hHandle : ℕ) :
    ActsOnSlot hm hHandle (hmHandleTranslateToOS2 hHandle hm) none
      (fun i => .ok (some (hm.data i).hHMHandle)) ↔ Direct hm hHandle := by
  refine actsOnSlot_iff_direct (fun h => hmHandleTranslateToOS2 h hm) ?_ ?_ ?_ ?_
  · intro none
    exact if_pos (validate_of_none none)
  · intro i found high
    exact (if_neg (validate_of_query found)).trans (if_pos high)
  · intro i found low
    exact (if_neg (validate_of_query found)).trans (if_neg (Nat.not_le.2 low))
  · intro i _ same
    cases same

theorem handleFree_iff (hm : HandleManager) (hHandle : ℕ) :
    ActsOnSlot hm hHandle (hmHandleFree hHandle hm) (⟨.failed, none⟩, hm)
      (fun i => .ok (⟨.done, some i⟩, hm.freeHandle i)) ↔ Direct hm hHandle := by
  refine actsOnSlot_iff_direct (fun h => hmHandleFree h hm) ?_ ?_ ?_ ?_
  · intro none
    exact if_pos (validate_of_none none)
  · intro i found high
    exact (if_neg (validate_of_query found)).trans (if_pos high)
  · intro i found low
    exact (if_neg (validate_of_query found)).trans (if_neg (Nat.not_le.2 low))
  · intro i _ same
    cases same

theorem duplicate_inside (inside : i < maxOs2HmHandles) (fdwAccess fdwOptions : ℕ)
    (handler : Handler) (fClose o32Close : ℕ) :
    hmDuplicateHandle i fdwAccess fdwOptions handler fClose o32Close hm ≠
      .error .outsideTable := by
  unfold hmDuplicateHandle
  rw [if_neg (Nat.not_le.2 inside)]
  by_cases invalid : hmHandleValidate hm i = false
  · rw [if_pos invalid]
    intro same
    cases same
  · rw [if_neg invalid]
    dsimp only
    split
    · intro same
      cases same
    · split
      · intro same
        cases same
      · split_ifs <;> intro same <;> cases same

theorem duplicateHandle_iff (hm : HandleManager) (hHandle fdwAccess fdwOptions : ℕ)
    (handler : Handler) (fClose o32Close : ℕ) :
    ActsOnSlot hm hHandle
      (hmDuplicateHandle hHandle fdwAccess fdwOptions handler fClose o32Close hm)
      (⟨.failed, none⟩, hm)
      (fun i => hmDuplicateHandle i fdwAccess fdwOptions handler fClose o32Close hm) ↔
      Direct hm hHandle := by
  refine actsOnSlot_iff_direct
    (fun h => hmDuplicateHandle h fdwAccess fdwOptions handler fClose o32Close hm) ?_ ?_ ?_ ?_
  · intro none
    exact if_pos (validate_of_none none)
  · intro i found high
    exact (if_neg (validate_of_query found)).trans (if_pos high)
  · intro i _ _
    rfl
  · intro i found
    exact duplicate_inside (query_self found).1 fdwAccess fdwOptions handler fClose o32Close

theorem getUserData_slot (hm : HandleManager) (hHandle : ℕ) :
    ActsOnSlot hm hHandle (hmHandleGetUserData hHandle hm) 0xffffffff
      (fun i => .ok (hm.data i).dwUserData) := by
  unfold ActsOnSlot hmHandleGetUserData hmHandleQuery
  cases is : hm.translate hHandle with
  | none => rfl
  | some i =>
    dsimp only
    rw [if_neg (Nat.not_le.2 (translate_lt is))]
    cases used : hm.free i with
    | true => simp [Option.filter, used]
    | false => simp [Option.filter, used]

/-- A table whose entry 5 is the standard output. -/
def redirected : HandleManager :=
  { HandleManager.init.setData 5 { hHMHandle := 1 } with hStandardOut := 5 }

theorem redirected_outside :
    hmHandleQuery redirected stdOutputHandle = some 5 ∧
      hmHandleTranslateToOS2 stdOutputHandle redirected = .error .outsideTable := by
  decide +kernel

end Odin32.Handles
