import Odin32.HandlesSearch

/-! # Runs over the handle table

What a call does to the set of used entries is one relation for all of them: it adds the
entry handed out, takes away the one it closed, and leaves the rest. A call has this
effect when its search does not miss a free entry and the device handlers leave a marked
entry marked. -/

set_option autoImplicit false

namespace Odin32.Handles

open HandleManager

/-- The effect of a call on the entries in use. -/
structure Effect (hm : HandleManager) (r : Result) (hm' : HandleManager) : Prop where
  handed : ∀ i, r.outcome = .handed i → 1 ≤ i ∧ i < maxOs2HmHandles ∧ hm.free i = true
  full : r.outcome = .noHandle → hm.Full
  closed : ∀ i, r.closed = some i → hm.free i = false
  frame : ∀ j, hm'.free j =
    ((hm.free j || decide (r.closed = some j)) && decide (r.outcome ≠ .handed j))

/-- The entry a call is asked to close or free. -/
def Op.closes (hm : HandleManager) : Op → ℕ → Prop
  | .duplicateHandle srchandle _ fdwOptions _ _ _, i =>
    fdwOptions &&& duplicateCloseSource ≠ 0 ∧ hmHandleQuery hm srchandle = some i
  | .handleFree hHandle16, i => hmHandleQuery hm hHandle16 = some i
  | .closeHandle hObject _ _, i => hmHandleQuery hm hObject = some i
  | _, _ => False

/-- The call closes its source whether it fails or not. -/
def Op.closesSource : Op → Prop
  | .duplicateHandle _ _ fdwOptions _ _ _ => fdwOptions &&& duplicateCloseSource ≠ 0
  | _ => False

/-- The entries handed out and not freed since, after one more call. -/
def outstanding (out : List ℕ) (r : Result) : List ℕ :=
  let kept := out.filter fun i => r.closed ≠ some i
  match r.outcome with
  | .handed i => i :: kept
  | _ => kept

/-- What is asked of one call. -/
structure CallOk (hm : HandleManager) (out : List ℕ) (op : Op) (r : Result)
    (hm' : HandleManager) : Prop extends Effect hm r hm' where
  asked : ∀ i, r.closed = some i → op.closes hm i
  unchanged : r.outcome = .failed ∨ r.outcome = .noHandle → r.closed = none ∨ op.closesSource
  fresh : ∀ i, r.outcome = .handed i → i ∉ out

/-- Every call of a run comes back and does what is asked of it. -/
def RunOk : HandleManager → List ℕ → List Op → Prop
  | _, _, [] => True
  | hm, out, op :: ops => ∃ r hm', step hm op = .ok (r, hm') ∧ CallOk hm out op r hm' ∧
      RunOk hm' (outstanding out r) ops

/-- A device handler that keeps the entry leaves it marked. -/
def Handler.Marks (handler : Handler) (keeps : ℕ → Bool) : Prop :=
  ∀ d : HMHandleData, d.hHMHandle ≠ invalidHandleValue → keeps (handler d).rc = true →
    (handler d).data.hHMHandle ≠ invalidHandleValue

/-- The call is not one of those that go wrong. -/
def Fits (hm : HandleManager) : Op → Prop
  | .setupStdHandle nStdHandle type o32Handle =>
    hm.UpwardFinds ∧ (hm.Full ∨ (hmGetStdHandle hm nStdHandle).isSome ∧
      (type % 8 = 0 ∨ type % 8 = 1 ∧ o32Handle ≠ invalidHandleValue ∨ type % 8 = 2))
  | .setStdHandle _ _ => True
  | .setHandleInformation _ handler => handler.Marks fun _ => true
  | .createFile args handler setInformation =>
    (fileDevice args hm = none ∨ hm.UpwardFinds) ∧
      (∀ template, fileDevice args hm ≠ some (none, template)) ∧
      handler.Marks (· == noError) ∧ setInformation.Marks fun _ => true
  | .openFile _ _ _ handler => hm.UpwardFinds ∧ handler.Marks (· == noError)
  | .duplicateHandle srchandle _ _ handler _ _ =>
    hmHandleValidate hm srchandle = false ∨
      srchandle < maxOs2HmHandles ∧ hm.UpwardFinds ∧ handler.Marks (· != 0) ∧
        (hm.tabWin32Handles srchandle).pDeviceHandler ≠ none
  | .createMutex handler | .openMutex _ handler | .createSemaphore handler
  | .openSemaphore _ handler | .openFileMapping _ handler | .openThreadToken _ handler
  | .openProcessToken _ handler => hm.UpwardFinds ∧ handler.Marks (· == noError)
  | .createFileMapping handler =>
    hm.UpwardFinds ∧ handler.Marks fun rc => rc == noError || rc == errorAlreadyExists
  | .createFreePtr _ handler keeps => hm.UpwardFinds ∧ handler.Marks keeps ∧
      ∀ d, (handler d).data.hWin32Handle = d.hWin32Handle
  | .allocate phHandle16 hHandleOS2 =>
    phHandle16 = true ∧ hHandleOS2 ≠ invalidHandleValue ∧ hm.CircleFinds
  | .handleFree hHandle16 =>
    hHandle16 < maxOs2HmHandles ∨ hmHandleValidate hm hHandle16 = false
  | .closeHandle _ _ _ => True

def StepsFit : HandleManager → List Op → Prop
  | _, [] => True
  | hm, op :: ops => Fits hm op ∧ ∀ r hm', step hm op = .ok (r, hm') → StepsFit hm' ops

/-! ## Effects -/

theorem effect_still {hm hm' : HandleManager} {outcome : Outcome}
    (still : outcome = .failed ∨ outcome = .done) (same : ∀ j, hm'.free j = hm.free j) :
    Effect hm ⟨outcome, none⟩ hm' := by
  constructor
  · intro i handed
    rcases still with rfl | rfl <;> cases handed
  · intro full
    rcases still with rfl | rfl <;> cases full
  · intro i closed
    cases closed
  · intro j
    rw [same]
    rcases still with rfl | rfl <;> simp

theorem effect_noHandle {hm hm' : HandleManager} (full : hm.Full)
    (same : ∀ j, hm'.free j = hm.free j) : Effect hm ⟨.noHandle, none⟩ hm' := by
  constructor
  · intro i handed
    cases handed
  · exact fun _ => full
  · intro i closed
    cases closed
  · intro j
    rw [same]
    simp

/-- The effect of a call that closes nothing. -/
def Outcomes (hm : HandleManager) (answer : Result × HandleManager) : Prop :=
  Effect hm answer.1 answer.2 ∧ answer.1.closed = none ∧ answer.2.CursorsOk

/-- One entry was taken and may have been written since; the others are as they were. -/
structure Marked (hm : HandleManager) (i : ℕ) (hm' : HandleManager) : Prop where
  pos : 1 ≤ i
  lt : i < maxOs2HmHandles
  wasFree : hm.free i = true
  frame : ∀ j, j ≠ i → hm'.free j = hm.free j
  cursors : hm'.CursorsOk

theorem Taken.marked {hm hm' : HandleManager} {i : ℕ} (takes : Taken hm i hm') :
    Marked hm i hm' := by
  refine ⟨takes.pos, takes.lt, takes.wasFree, ?_, takes.cursors⟩
  intro j other
  rw [takes.free]
  simp [other]

namespace Marked

variable {hm hm' : HandleManager} {i : ℕ} (marked : Marked hm i hm')

include marked

theorem setData (d : HMHandleData) : Marked hm i (hm'.setData i d) := by
  refine ⟨marked.pos, marked.lt, marked.wasFree, ?_, marked.cursors.lastIndex,
    marked.cursors.ulHandleLast⟩
  intro j other
  rw [free_setData, if_neg other, marked.frame j other]

theorem setDevice (device : DeviceHandler) : Marked hm i (hm'.setDevice i device) := by
  refine ⟨marked.pos, marked.lt, marked.wasFree, ?_, marked.cursors.lastIndex,
    marked.cursors.ulHandleLast⟩
  intro j other
  rw [free_setDevice, marked.frame j other]

theorem index_ne : i ≠ invalidHandleValue := by
  have short := marked.lt
  unfold maxOs2HmHandles at short
  unfold invalidHandleValue
  omega

theorem handed (used : hm'.free i = false) : Outcomes hm (⟨.handed i, none⟩, hm') := by
  refine ⟨?_, rfl, marked.cursors⟩
  constructor
  · rintro j ⟨⟩
    exact ⟨marked.pos, marked.lt, marked.wasFree⟩
  · intro full
    cases full
  · intro j closed
    cases closed
  · intro j
    by_cases here : j = i
    · subst here
      simp [used]
    · rw [marked.frame j here]
      simp [Ne.symm here]

theorem givenBack {outcome : Outcome} (still : outcome = .failed ∨ outcome = .done) :
    Outcomes hm (⟨outcome, none⟩, hm'.freeHandle i) := by
  refine ⟨effect_still still ?_, rfl, marked.cursors.lastIndex, marked.cursors.ulHandleLast⟩
  intro j
  rw [free_freeHandle]
  by_cases here : j = i
  · simp [here, marked.wasFree]
  · rw [marked.frame j here]
    simp [here]

end Marked

theorem effect_closed {hm hm' : HandleManager} {i : ℕ} (used : hm.free i = false)
    (frees : ∀ j, hm'.free j = (hm.free j || decide (j = i))) :
    Effect hm ⟨.done, some i⟩ hm' := by
  constructor
  · intro j handed
    cases handed
  · intro full
    cases full
  · rintro j ⟨⟩
    exact used
  · intro j
    rw [frees]
    simp [eq_comm]

/-! ## The creating calls -/

section Create

variable {hm : HandleManager} (ok : hm.CursorsOk) (finds : hm.UpwardFinds)

include ok finds

theorem effect_missed {hm' : HandleManager} (missed : hmHandleGetFree hm = (none, hm')) :
    Outcomes hm (⟨.noHandle, none⟩, hm') := by
  rcases hmHandleGetFree_cases hm ok with ⟨i, hm'', found, _⟩ | ⟨hm'', found, used, same, ok'⟩
  · rw [found] at missed
    cases missed
  · rw [found] at missed
    cases missed
    refine ⟨effect_noHandle (hmHandleGetFree_full finds used) fun j => ?_, rfl, ok'⟩
    unfold HandleManager.free HandleManager.data
    rw [same]

omit finds in
theorem taken_of_found {hm' : HandleManager} {i : ℕ}
    (found : hmHandleGetFree hm = (some i, hm')) : Taken hm i hm' := by
  rcases hmHandleGetFree_cases hm ok with ⟨j, hm'', found', takes⟩ | ⟨hm'', found', _⟩
  · rw [found'] at found
    cases found
    exact takes
  · rw [found'] at found
    cases found

theorem createWith_effect (device : DeviceHandler) (fill : HMHandleData → HMHandleData)
    {handler : Handler} {keeps : ℕ → Bool} (marks : handler.Marks keeps) :
    Outcomes hm (createWith device fill handler keeps hm) := by
  unfold createWith
  rcases found : hmHandleGetFree hm with ⟨_ | i, taken⟩
  · exact effect_missed ok finds found
  · have takes := (taken_of_found ok found).marked
    have final := ((takes.setData { fill (taken.data i) with hHMHandle := i }).setDevice
      device).setData (handler { fill (taken.data i) with hHMHandle := i }).data
    simp only
    split
    · next kept =>
      apply final.handed
      rw [free_setData, if_pos rfl]
      have stays := marks { fill (taken.data i) with hHMHandle := i } takes.index_ne kept
      simpa using stays
    · exact final.givenBack (Or.inl rfl)

theorem openFile_effect (device : DeviceHandler) (pDevData fuMode : ℕ) {handler : Handler}
    (marks : handler.Marks (· == noError)) :
    Outcomes hm (openFile device pDevData fuMode handler hm) := by
  unfold openFile
  rcases found : hmHandleGetFree hm with ⟨_ | i, taken⟩
  · exact effect_missed ok finds found
  · have takes := (taken_of_found ok found).marked
    simp only
    generalize entry : ({ taken.data i with
      dwAccess := (fileConvertOFMode fuMode).1, dwShare := (fileConvertOFMode fuMode).2
      dwCreation := 3, dwFlags := 0, lpHandlerData := 0, lpDeviceData := pDevData
      hHMHandle := i } : HMHandleData) = data
    have marked : data.hHMHandle ≠ invalidHandleValue := by
      rw [← entry]
      exact takes.index_ne
    have final := ((takes.setData data).setDevice
      (if device = .open32 then .file else device)).setData (handler data).data
    split
    · exact final.givenBack (Or.inr rfl)
    split
    · exact final.givenBack (Or.inl rfl)
    next kept =>
    split
    · exact final.givenBack (Or.inr rfl)
    split
    · exact final.givenBack (Or.inr rfl)
    apply final.handed
    rw [free_setData, if_pos rfl]
    have stays := marks data marked (by simpa using kept)
    simpa using stays

theorem hmSetupStdHandle_effect {nStdHandle type o32Handle : ℕ}
    (fits : hm.Full ∨ (hmGetStdHandle hm nStdHandle).isSome ∧
      (type % 8 = 0 ∨ type % 8 = 1 ∧ o32Handle ≠ invalidHandleValue ∨ type % 8 = 2)) :
    Outcomes hm (hmSetupStdHandle nStdHandle type o32Handle hm) := by
  unfold hmSetupStdHandle
  rcases found : hmHandleGetFree hm with ⟨_ | i, taken⟩
  · exact effect_missed ok finds found
  · have takes := (taken_of_found ok found).marked
    rcases fits with full | ⟨known, types⟩
    · have isFree := takes.wasFree
      rw [full i takes.pos takes.lt] at isFree
      cases isFree
    · have standard (hIn hOut hErr : ℕ) : Marked hm i { taken with
          hStandardIn := hIn, hStandardOut := hOut, hStandardError := hErr } :=
        ⟨takes.pos, takes.lt, takes.wasFree, takes.frame, takes.cursors.lastIndex,
          takes.cursors.ulHandleLast⟩
      have sets : ∃ handle : ℕ, handle < 3 ∧ (if nStdHandle = stdInputHandle then some 0
          else if nStdHandle = stdOutputHandle then some 1
          else if nStdHandle = stdErrorHandle then some 2 else none) = some handle := by
        unfold hmGetStdHandle at known
        split
        · exact ⟨0, by decide, rfl⟩
        split
        · exact ⟨1, by decide, rfl⟩
        split
        · exact ⟨2, by decide, rfl⟩
        · simp_all
      obtain ⟨handle, small, eq⟩ := sets
      have set_ : Marked hm i (hmSetStdHandle nStdHandle i taken).2 := by
        unfold hmSetStdHandle
        split
        · exact standard _ _ _
        split
        · exact standard _ _ _
        split
        · exact standard _ _ _
        · exact takes
      have usable : handle ≠ invalidHandleValue := by
        unfold invalidHandleValue
        omega
      simp only [eq]
      rcases types with zero | ⟨one, given⟩ | two
      · simp only [zero]
        apply Marked.handed ((set_.setData _).setDevice _)
        rw [free_setDevice, free_setData, if_pos rfl]
        simpa using usable
      · simp only [one]
        apply Marked.handed ((set_.setData _).setDevice _)
        rw [free_setDevice, free_setData, if_pos rfl]
        simpa using given
      · simp only [two]
        apply Marked.handed ((set_.setData _).setDevice _)
        rw [free_setDevice, free_setData, if_pos rfl]
        simpa using usable

end Create

/-! ## The calls on a handle -/

theorem hmHandleQuery_some {hm : HandleManager} {hHandle i : ℕ}
    (query : hmHandleQuery hm hHandle = some i) :
    hm.translate hHandle = some i ∧ hm.free i = false := by
  unfold hmHandleQuery at query
  rw [Option.filter_eq_some_iff] at query
  exact ⟨query.1, by simpa using query.2⟩

theorem hmHandleQuery_inside {hm : HandleManager} {hHandle : ℕ} (inside : hHandle < maxOs2HmHandles)
    (valid : hmHandleValidate hm hHandle = true) :
    hmHandleQuery hm hHandle = some hHandle ∧ hm.free hHandle = false := by
  unfold hmHandleValidate at valid
  obtain ⟨i, query⟩ := Option.isSome_iff_exists.mp valid
  have parts := hmHandleQuery_some query
  unfold HandleManager.translate at parts
  rw [if_pos inside] at parts
  cases parts.1
  exact ⟨query, parts.2⟩

theorem hmSetHandleInformation_effect {hm : HandleManager} (ok : hm.CursorsOk) (hObject : ℕ)
    {handler : Handler} (marks : handler.Marks fun _ => true) :
    (∀ j, (hmSetHandleInformation hObject handler hm).2.free j = hm.free j) ∧
    Outcomes hm (hmSetHandleInformation hObject handler hm) := by
  unfold hmSetHandleInformation
  split
  · exact ⟨fun _ => rfl, effect_still (Or.inl rfl) fun _ => rfl, rfl, ok⟩
  next i query =>
  split
  · exact ⟨fun _ => rfl, effect_still (Or.inr rfl) fun _ => rfl, rfl, ok⟩
  have used := (hmHandleQuery_some query).2
  have same (j : ℕ) : (hm.setData i (handler (hm.data i)).data).free j = hm.free j := by
    rw [free_setData]
    split
    · next here =>
      rw [here, used]
      have stays := marks (hm.data i) (by simpa [HandleManager.free] using used) rfl
      simpa using stays
    · rfl
  refine ⟨same, effect_still ?_ same, rfl, ok.lastIndex, ok.ulHandleLast⟩
  split
  · exact Or.inl rfl
  · exact Or.inr rfl

theorem hmCreateFile_found {hm taken : HandleManager} {args : CreateFileArgs}
    {device : DeviceHandler} {template : Option ℕ} {i : ℕ} (handler setInformation : Handler)
    (source : fileDevice args hm = some (some device, template))
    (found : hmHandleGetFree hm = (some i, taken)) : ∃ temp : HMHandleData, temp.hHMHandle = i ∧
      hmCreateFile args handler setInformation hm =
        (let hm := (taken.setDevice i device).setData i temp
        if (handler temp).rc ≠ noError then .ok (⟨.failed, none⟩, hm.freeHandle i)
        else
          let hm := hm.setData i (handler temp).data
          let hm := if args.bInheritHandle then
            (hmSetHandleInformation i setInformation hm).2 else hm
          .ok (⟨.handed i, none⟩, hm)) := by
  unfold hmCreateFile
  rw [source]
  simp only
  rw [found]
  exact ⟨_, rfl, rfl⟩

theorem hmCreateFile_effect {hm : HandleManager} (ok : hm.CursorsOk) (args : CreateFileArgs)
    (finds : fileDevice args hm = none ∨ hm.UpwardFinds)
    (known : ∀ template, fileDevice args hm ≠ some (none, template))
    {handler setInformation : Handler} (marks : handler.Marks (· == noError))
    (sets : setInformation.Marks fun _ => true) :
    ∃ answer, hmCreateFile args handler setInformation hm = .ok answer ∧ Outcomes hm answer := by
  rcases source : fileDevice args hm with _ | ⟨_ | device, template⟩
  · refine ⟨(⟨.failed, none⟩, hm), ?_, effect_still (Or.inl rfl) fun _ => rfl, rfl, ok⟩
    unfold hmCreateFile
    rw [source]
  · exact absurd source (known template)
  rcases finds with unknown | finds
  · rw [unknown] at source
    cases source
  rcases found : hmHandleGetFree hm with ⟨_ | i, taken⟩
  · refine ⟨(⟨.noHandle, none⟩, taken), ?_, effect_missed ok finds found⟩
    unfold hmCreateFile
    rw [source]
    simp only
    rw [found]
  have takes := (taken_of_found ok found).marked
  obtain ⟨temp, handle, called⟩ := hmCreateFile_found handler setInformation source found
  rw [called]
  have used : temp.hHMHandle ≠ invalidHandleValue := by
    rw [handle]
    exact takes.index_ne
  have opened := (takes.setDevice device).setData temp
  split
  · exact ⟨_, rfl, opened.givenBack (Or.inl rfl)⟩
  next kept =>
  have final := opened.setData (handler temp).data
  have stays : (((taken.setDevice i device).setData i temp).setData i
      (handler temp).data).free i = false := by
    rw [free_setData, if_pos rfl]
    simpa using marks temp used (by simpa using kept)
  refine ⟨_, rfl, ?_⟩
  split
  · have set_ := hmSetHandleInformation_effect final.cursors i sets
    apply Marked.handed
    · refine ⟨final.pos, final.lt, final.wasFree, ?_, set_.2.2.2⟩
      intro j other
      rw [set_.1, final.frame j other]
    · rw [set_.1, stays]
  · exact final.handed stays

theorem hmCloseHandle_cases (hm : HandleManager) (hObject fResult o32Result : ℕ) :
    (∃ i, hmHandleQuery hm hObject = some i ∧
      hmCloseHandle hObject fResult o32Result hm = (⟨.done, some i⟩, hm.freeHandle i)) ∨
    ∃ outcome, (outcome = .failed ∨ outcome = .done) ∧
      hmCloseHandle hObject fResult o32Result hm = (⟨outcome, none⟩, hm) := by
  unfold hmCloseHandle
  split
  · right
    refine ⟨_, ?_, rfl⟩
    split
    · exact Or.inl rfl
    · exact Or.inr rfl
  next i query =>
  split
  · exact Or.inr ⟨_, Or.inr rfl, rfl⟩
  simp only
  generalize (if (hm.tabWin32Handles i).pDeviceHandler = none then 1 else fResult) = result
  by_cases closes : result = 1
  · rw [if_pos closes]
    exact Or.inl ⟨i, query, rfl⟩
  · rw [if_neg closes]
    right
    refine ⟨_, ?_, rfl⟩
    split
    · exact Or.inl rfl
    · exact Or.inr rfl

theorem hmHandleFree_cases (hm : HandleManager) {hHandle16 : ℕ}
    (fits : hHandle16 < maxOs2HmHandles ∨ hmHandleValidate hm hHandle16 = false) :
    (hmHandleValidate hm hHandle16 = false ∧
      hmHandleFree hHandle16 hm = .ok (⟨.failed, none⟩, hm)) ∨
    (hmHandleQuery hm hHandle16 = some hHandle16 ∧ hm.free hHandle16 = false ∧
      hmHandleFree hHandle16 hm = .ok (⟨.done, some hHandle16⟩, hm.freeHandle hHandle16)) := by
  unfold hmHandleFree
  by_cases valid : hmHandleValidate hm hHandle16 = true
  · right
    have inside : hHandle16 < maxOs2HmHandles := by
      rcases fits with inside | invalid
      · exact inside
      · rw [valid] at invalid
        cases invalid
    rw [if_neg (by simp [valid]), if_neg (by omega)]
    have query := hmHandleQuery_inside inside valid
    exact ⟨query.1, query.2, rfl⟩
  · left
    have invalid : hmHandleValidate hm hHandle16 = false := by simpa using valid
    rw [if_pos invalid]
    exact ⟨invalid, rfl⟩

theorem createFreePtr_effect {hm : HandleManager} (ok : hm.CursorsOk) (finds : hm.UpwardFinds)
    (dwType : HandleType) {handler : Handler} {keeps : ℕ → Bool} (marks : handler.Marks keeps)
    (keepsHandle : ∀ d, (handler d).data.hWin32Handle = d.hWin32Handle) :
    ∃ answer, createFreePtr dwType handler keeps hm = .ok answer ∧ Outcomes hm answer := by
  unfold createFreePtr
  rcases found : hmHandleGetFree hm with ⟨_ | i, taken⟩
  · exact ⟨_, rfl, effect_missed ok finds found⟩
  have search := taken_of_found ok found
  have takes := search.marked
  -- `HMHandleFree` of the index that was taken gives it back, marked or not
  have frees {hm' : HandleManager} (final : Marked hm i hm') : ∃ answer,
      (hmHandleFree i hm').map (fun freed => ((⟨.failed, none⟩ : Result), freed.2)) = .ok answer ∧
        Outcomes hm answer := by
    rcases hmHandleFree_cases hm' (Or.inl final.lt) with ⟨invalid, freed⟩ | ⟨_, _, freed⟩
    · rw [freed]
      refine ⟨_, rfl, effect_still (Or.inl rfl) ?_, rfl, final.cursors⟩
      intro j
      by_cases here : j = i
      · rw [here, final.wasFree]
        unfold hmHandleValidate hmHandleQuery HandleManager.translate at invalid
        rw [if_pos final.lt] at invalid
        simpa using invalid
      · exact final.frame j here
    · rw [freed]
      exact ⟨_, rfl, final.givenBack (Or.inl rfl)⟩
  simp only
  split
  · exact frees takes
  next device _ =>
  generalize entry : ({ (taken.setDevice i device).data i with dwInternalType := dwType } :
    HMHandleData) = data
  have facts : data.hHMHandle = i ∧ data.hWin32Handle = i := by
    rw [← entry, data_setDevice, search.data i, if_pos rfl]
    exact ⟨rfl, rfl⟩
  have final := (takes.setDevice device).setData (handler data).data
  have handle : (handler data).data.hWin32Handle = i := by rw [keepsHandle, facts.2]
  rw [handle]
  split
  · next kept =>
    refine ⟨_, rfl, final.handed ?_⟩
    rw [free_setData, if_pos rfl]
    have stays := marks data (by rw [facts.1]; exact takes.index_ne) kept
    simpa using stays
  · exact frees final

theorem hmHandleAllocate_effect {hm : HandleManager} (ok : hm.CursorsOk) {hHandleOS2 : ℕ}
    (nonZero : hHandleOS2 ≠ invalidHandleValue) (finds : hm.CircleFinds) :
    ∃ answer, hmHandleAllocate true hHandleOS2 hm = .ok answer ∧ Outcomes hm answer := by
  unfold hmHandleAllocate
  rw [if_neg (by decide)]
  rcases finds with ⟨i, positive, inside, other, isFree⟩ | ⟨full, last⟩
  · obtain ⟨found, search⟩ := allocate_finds ok positive inside other isFree
    have facts := allocateFrom_some hm _ (startIndex_pos hm) (startIndex_lt hm) search
    simp only [search]
    refine ⟨_, rfl, ?_⟩
    apply Marked.handed
    · refine ⟨facts.1, facts.2.1, facts.2.2, ?_, ok.lastIndex, facts.2.1⟩
      intro j away
      exact (free_setData hm found j _).trans (if_neg away)
    · refine (free_setData hm found found _).trans ?_
      rw [if_pos rfl]
      simpa using nonZero
  · rw [allocate_full ok full last]
    exact ⟨_, rfl, effect_noHandle full fun _ => rfl, rfl, ok⟩

theorem Marked.closing {hm hm' hm'' : HandleManager} {i : ℕ} (marked : Marked hm i hm')
    (closed : Option ℕ) (used : ∀ j, closed = some j → hm.free j = false)
    (frees : ∀ j, hm''.free j = (hm'.free j || decide (closed = some j))) :
    Effect hm ⟨.failed, closed⟩ (hm''.freeHandle i) ∧
      (hm'.free i = false → Effect hm ⟨.handed i, closed⟩ hm'') := by
  have apart : closed ≠ some i := by
    intro same
    have taken := used i same
    rw [marked.wasFree] at taken
    cases taken
  constructor
  · constructor
    · intro j handed
      cases handed
    · intro full
      cases full
    · exact used
    · intro j
      rw [free_freeHandle, frees]
      by_cases here : j = i
      · simp [here, marked.wasFree]
      · rw [marked.frame j here]
        simp [here]
  · intro stays
    constructor
    · rintro j ⟨⟩
      exact ⟨marked.pos, marked.lt, marked.wasFree⟩
    · intro full
      cases full
    · exact used
    · intro j
      rw [frees]
      by_cases here : j = i
      · subst here
        simp [stays, apart]
      · rw [marked.frame j here]
        simp [Ne.symm here]

theorem hmDuplicateHandle_effect {hm : HandleManager} (ok : hm.CursorsOk)
    {srchandle : ℕ} (fdwAccess fdwOptions : ℕ) {handler : Handler} (fClose o32Close : ℕ)
    (fits : hmHandleValidate hm srchandle = false ∨
      srchandle < maxOs2HmHandles ∧ hm.UpwardFinds ∧ handler.Marks (· != 0) ∧
        (hm.tabWin32Handles srchandle).pDeviceHandler ≠ none) :
    ∃ r hm', hmDuplicateHandle srchandle fdwAccess fdwOptions handler fClose o32Close hm =
        .ok (r, hm') ∧ Effect hm r hm' ∧ hm'.CursorsOk ∧
      ∀ i, r.closed = some i → fdwOptions &&& duplicateCloseSource ≠ 0 ∧
        hmHandleQuery hm srchandle = some i := by
  unfold hmDuplicateHandle
  by_cases valid : hmHandleValidate hm srchandle = true
  swap
  · rw [if_pos (by simpa using valid)]
    refine ⟨_, _, rfl, effect_still (Or.inl rfl) fun _ => rfl, ok, ?_⟩
    intro i closed
    cases closed
  rw [if_neg (by simp [valid])]
  rcases fits with invalid | ⟨inside, finds, marks, hasDevice⟩
  · rw [valid] at invalid
    cases invalid
  rw [if_neg (by omega)]
  have query := hmHandleQuery_inside inside valid
  simp only
  rcases found : hmHandleGetFree hm with ⟨_ | i, taken⟩
  · have missed := effect_missed ok finds found
    refine ⟨_, _, rfl, missed.1, missed.2.2, ?_⟩
    intro i closed
    cases closed
  have takes := (taken_of_found ok found).marked
  simp only
  generalize entry : ({ taken.data i with
    dwAccess := if fdwOptions &&& duplicateSameAccess ≠ 0 then (taken.data srchandle).dwAccess
      else fdwAccess
    dwShare := (taken.data srchandle).dwShare
    dwCreation := (taken.data srchandle).dwCreation
    dwFlags := (taken.data srchandle).dwFlags
    lpHandlerData := (taken.data srchandle).lpHandlerData
    dwInternalType := (taken.data srchandle).dwInternalType
    hHMHandle := i } : HMHandleData) = data
  have used : data.hHMHandle ≠ invalidHandleValue := by
    rw [← entry]
    exact takes.index_ne
  obtain ⟨device, known⟩ := Option.ne_none_iff_exists'.mp hasDevice
  simp only [known]
  have final := ((takes.setData data).setDevice device).setData (handler data).data
  have stays (kept : (handler data).rc ≠ 0) : (((taken.setData i data).setDevice i device).setData
      i (handler data).data).free i = false := by
    rw [free_setData, if_pos rfl]
    simpa using marks data used (by simpa using kept)
  generalize ((taken.setData i data).setDevice i device).setData i (handler data).data = opened
    at final stays ⊢
  -- what is closed is the source, and only when that was asked for
  have closing : ∃ closed hm'', (if fdwOptions &&& duplicateCloseSource ≠ 0 then
        hmCloseHandle srchandle fClose o32Close opened
      else (⟨.done, none⟩, opened)).2 = hm'' ∧
      (if fdwOptions &&& duplicateCloseSource ≠ 0 then
        hmCloseHandle srchandle fClose o32Close opened
      else (⟨.done, none⟩, opened)).1.closed = closed ∧
      (∀ j, closed = some j → fdwOptions &&& duplicateCloseSource ≠ 0 ∧ j = srchandle) ∧
      (∀ j, hm''.free j = (opened.free j ||
        decide (closed = some j))) ∧ hm''.CursorsOk := by
    by_cases asked : fdwOptions &&& duplicateCloseSource ≠ 0
    · rw [if_pos asked]
      rcases hmCloseHandle_cases opened srchandle fClose o32Close
        with ⟨j, query', eq⟩ | ⟨outcome, _, eq⟩
      · rw [eq]
        refine ⟨some j, _, rfl, rfl, ?_, ?_, final.cursors.lastIndex, final.cursors.ulHandleLast⟩
        · rintro k ⟨⟩
          have translated := (hmHandleQuery_some query').1
          unfold HandleManager.translate at translated
          rw [if_pos inside] at translated
          cases translated
          exact ⟨asked, rfl⟩
        · intro k
          rw [free_freeHandle]
          simp [eq_comm]
      · rw [eq]
        refine ⟨none, _, rfl, rfl, ?_, ?_, final.cursors⟩
        · intro k closed
          cases closed
        · intro k
          simp
    · rw [if_neg asked]
      refine ⟨none, _, rfl, rfl, ?_, ?_, final.cursors⟩
      · intro k closed
        cases closed
      · intro k
        simp
  obtain ⟨closed, hm'', state, result, only, frees, cursors⟩ := closing
  rw [state, result]
  have both := final.closing closed (by
    intro j here
    rw [(only j here).2]
    exact query.2) frees
  have asked (j : ℕ) (here : closed = some j) : fdwOptions &&& duplicateCloseSource ≠ 0 ∧
      hmHandleQuery hm srchandle = some j := by
    refine ⟨(only j here).1, ?_⟩
    rw [(only j here).2]
    exact query.1
  split
  · exact ⟨_, _, rfl, both.1, ⟨cursors.lastIndex, cursors.ulHandleLast⟩, asked⟩
  · next kept => exact ⟨_, _, rfl, both.2 (stays kept), cursors, asked⟩

/-! ## One call, and a run -/

theorem callOk_of_outcomes {hm : HandleManager} {out : List ℕ}
    (held : ∀ i ∈ out, hm.free i = false) {op : Op} {answer : Result × HandleManager}
    (outcomes : Outcomes hm answer) : CallOk hm out op answer.1 answer.2 := by
  obtain ⟨effect, nothing, _⟩ := outcomes
  refine ⟨effect, ?_, fun _ => Or.inl nothing, ?_⟩
  · intro i closed
    rw [nothing] at closed
    cases closed
  · intro i handed inside
    have taken := held i inside
    rw [(effect.handed i handed).2.2] at taken
    cases taken

theorem step_ok {hm : HandleManager} {out : List ℕ} (ok : hm.CursorsOk)
    (held : ∀ i ∈ out, hm.free i = false) {op : Op} (fits : Fits hm op) :
    ∃ r hm', step hm op = .ok (r, hm') ∧ CallOk hm out op r hm' ∧ hm'.CursorsOk := by
  have of_outcomes {answer : Result × HandleManager} (eq : step hm op = .ok answer)
      (outcomes : Outcomes hm answer) :
      ∃ r hm', step hm op = .ok (r, hm') ∧ CallOk hm out op r hm' ∧ hm'.CursorsOk :=
    ⟨_, _, eq, callOk_of_outcomes held outcomes, outcomes.2.2⟩
  cases op with
  | setupStdHandle nStdHandle type o32Handle =>
    exact of_outcomes rfl (hmSetupStdHandle_effect ok fits.1 fits.2)
  | setStdHandle nStdHandle hHandle =>
    apply of_outcomes rfl
    unfold hmSetStdHandle
    have still (hm' : HandleManager) (outcome : Outcome)
        (kind : outcome = .failed ∨ outcome = .done) (same : hm'.tabWin32Handles = hm.tabWin32Handles)
        (cursors : hm'.CursorsOk) : Outcomes hm (⟨outcome, none⟩, hm') := by
      refine ⟨effect_still kind fun j => ?_, rfl, cursors⟩
      unfold HandleManager.free HandleManager.data
      rw [same]
    split
    · exact still _ _ (Or.inr rfl) rfl ⟨ok.lastIndex, ok.ulHandleLast⟩
    split
    · exact still _ _ (Or.inr rfl) rfl ⟨ok.lastIndex, ok.ulHandleLast⟩
    split
    · exact still _ _ (Or.inr rfl) rfl ⟨ok.lastIndex, ok.ulHandleLast⟩
    · exact still _ _ (Or.inl rfl) rfl ok
  | setHandleInformation hObject handler =>
    exact of_outcomes rfl (hmSetHandleInformation_effect ok hObject fits).2
  | createFile args handler setInformation =>
    obtain ⟨answer, eq, outcomes⟩ :=
      hmCreateFile_effect ok args fits.1 fits.2.1 fits.2.2.1 fits.2.2.2
    exact of_outcomes eq outcomes
  | openFile device pDevData fuMode handler =>
    exact of_outcomes rfl (openFile_effect ok fits.1 device pDevData fuMode fits.2)
  | duplicateHandle srchandle fdwAccess fdwOptions handler fClose o32Close =>
    obtain ⟨r, hm', eq, effect, cursors, asked⟩ :=
      hmDuplicateHandle_effect ok fdwAccess fdwOptions fClose o32Close fits
    refine ⟨r, hm', eq, ⟨effect, asked, ?_, ?_⟩, cursors⟩
    · intro _
      rcases closed : r.closed with _ | i
      · exact Or.inl rfl
      · exact Or.inr (asked i closed).1
    · intro i handed inside
      have taken := held i inside
      rw [(effect.handed i handed).2.2] at taken
      cases taken
  | createMutex handler => exact of_outcomes rfl (createWith_effect ok fits.1 _ _ fits.2)
  | openMutex fdwAccess handler => exact of_outcomes rfl (createWith_effect ok fits.1 _ _ fits.2)
  | createSemaphore handler => exact of_outcomes rfl (createWith_effect ok fits.1 _ _ fits.2)
  | openSemaphore fdwAccess handler =>
    exact of_outcomes rfl (createWith_effect ok fits.1 _ _ fits.2)
  | createFileMapping handler => exact of_outcomes rfl (createWith_effect ok fits.1 _ _ fits.2)
  | openFileMapping fdwAccess handler =>
    exact of_outcomes rfl (createWith_effect ok fits.1 _ _ fits.2)
  | openThreadToken desiredAccess handler =>
    exact of_outcomes rfl (createWith_effect ok fits.1 _ _ fits.2)
  | openProcessToken desiredAccess handler =>
    exact of_outcomes rfl (createWith_effect ok fits.1 _ _ fits.2)
  | createFreePtr dwType handler keeps =>
    obtain ⟨answer, eq, outcomes⟩ := createFreePtr_effect ok fits.1 dwType fits.2.1 fits.2.2
    exact of_outcomes eq outcomes
  | allocate phHandle16 hHandleOS2 =>
    obtain ⟨rfl, nonZero, finds⟩ := fits
    obtain ⟨answer, eq, outcomes⟩ := hmHandleAllocate_effect ok nonZero finds
    exact of_outcomes eq outcomes
  | handleFree hHandle16 =>
    rcases hmHandleFree_cases hm fits with ⟨_, eq⟩ | ⟨query, used, eq⟩
    · exact of_outcomes eq ⟨effect_still (Or.inl rfl) fun _ => rfl, rfl, ok⟩
    · refine ⟨_, _, eq, ⟨effect_closed used (free_freeHandle hm hHandle16), ?_, ?_, ?_⟩,
        ok.lastIndex, ok.ulHandleLast⟩
      · rintro i ⟨⟩
        exact query
      · rintro (failed | failed) <;> cases failed
      · intro i handed
        cases handed
  | closeHandle hObject fResult o32Result =>
    rcases hmCloseHandle_cases hm hObject fResult o32Result with
      ⟨i, query, eq⟩ | ⟨outcome, still, eq⟩
    · have used := (hmHandleQuery_some query).2
      refine ⟨_, _, congrArg Except.ok eq,
        ⟨effect_closed used (free_freeHandle hm i), ?_, ?_, ?_⟩, ok.lastIndex, ok.ulHandleLast⟩
      · rintro j ⟨⟩
        exact query
      · rintro (failed | failed) <;> cases failed
      · intro j handed
        cases handed
    · exact of_outcomes (congrArg Except.ok eq) ⟨effect_still still fun _ => rfl, rfl, ok⟩

theorem outstanding_held {hm hm' : HandleManager} {out : List ℕ} {r : Result}
    (held : ∀ i ∈ out, hm.free i = false) (effect : Effect hm r hm') :
    ∀ i ∈ outstanding out r, hm'.free i = false := by
  have kept : ∀ i ∈ out.filter (fun i => r.closed ≠ some i), hm'.free i = false := by
    intro i inside
    rw [List.mem_filter] at inside
    rw [effect.frame, held i inside.1]
    simpa using fun closed => absurd closed (by simpa using inside.2)
  intro i inside
  unfold outstanding at inside
  rcases outcome : r.outcome with j | _ | _ | _
  · rw [outcome] at inside
    rcases List.mem_cons.mp inside with rfl | inside
    · rw [effect.frame, outcome]
      simp
    · exact kept i inside
  all_goals
    rw [outcome] at inside
    exact kept i inside

theorem run_ok_from {hm : HandleManager} {out : List ℕ} (ok : hm.CursorsOk)
    (held : ∀ i ∈ out, hm.free i = false) (ops : List Op) (fits : StepsFit hm ops) :
    RunOk hm out ops := by
  induction ops generalizing hm out with
  | nil => trivial
  | cons op ops ih =>
    obtain ⟨r, hm', eq, callOk, cursors⟩ := step_ok ok held fits.1
    exact ⟨r, hm', eq, callOk,
      ih cursors (outstanding_held held callOk.toEffect) (fits.2 r hm' eq)⟩

theorem init_cursorsOk : HandleManager.init.CursorsOk := ⟨Nat.le_refl 1, by decide⟩

def accept : Handler := fun data => ⟨noError, data⟩

theorem accept_marks (keeps : ℕ → Bool) : accept.Marks keeps := fun _ marked _ => marked

/-- The first `n` entries are taken, all of them by the upward search. -/
structure FilledTo (n : ℕ) (hm : HandleManager) : Prop where
  lastIndex : hm.lastIndex = n + 1
  ulHandleLast : hm.ulHandleLast = 0
  free : ∀ i, 1 ≤ i → hm.free i = decide (n < i)

theorem filledTo_init : FilledTo 0 HandleManager.init := by
  refine ⟨rfl, rfl, ?_⟩
  intro i positive
  rw [decide_eq_true (by omega)]
  rfl

theorem filledTo_createMutex {n : ℕ} {hm : HandleManager} (filled : FilledTo n hm)
    (room : n + 1 < maxOs2HmHandles) :
    ∃ r hm', step hm (.createMutex accept) = .ok (r, hm') ∧ FilledTo (n + 1) hm' := by
  have start : hm.cursor = n + 1 := by
    unfold cursor
    rw [filled.lastIndex, if_neg (by omega)]
  have isFree : hm.free (n + 1) = true := by
    rw [filled.free _ (by omega)]
    simp
  have search : getFreeFrom { hm with lastIndex := n + 1 } (maxOs2HmHandles - (n + 1)) (n + 1) =
      some (n + 1) := by
    rw [show maxOs2HmHandles - (n + 1) = (maxOs2HmHandles - (n + 2)) + 1 by omega, getFreeFrom]
    exact if_pos isFree
  refine ⟨_, _, rfl, ?_⟩
  unfold hmHandleGetFree
  simp only [start, search]
  constructor
  · rfl
  · exact filled.ulHandleLast
  · intro i positive
    simp only [accept, noError, beq_self_eq_true, if_true]
    rw [free_setData, free_setDevice, free_setData]
    by_cases here : i = n + 1
    · subst here
      have short : n + 1 ≠ invalidHandleValue := by
        unfold maxOs2HmHandles at room
        unfold invalidHandleValue
        omega
      simp [short]
    · rw [if_neg here, if_neg here]
      have same : ({ hm with lastIndex := n + 1 }.setData (n + 1)
          { hHMHandle := n + 1, hWin32Handle := n + 1 }).free i = hm.free i := by
        rw [free_setData, if_neg here]
        rfl
      refine same.trans ?_
      rw [filled.free i positive]
      congr 1
      apply propext
      omega

theorem runOk_filled (k : ℕ) {n : ℕ} {hm : HandleManager} {out : List ℕ} (filled : FilledTo n hm)
    (room : n + k < maxOs2HmHandles) (rest : List Op)
    (ok : RunOk hm out (List.replicate k (.createMutex accept) ++ rest)) :
    ∃ hm' out', FilledTo (n + k) hm' ∧ RunOk hm' out' rest := by
  induction k generalizing n hm out with
  | zero => exact ⟨hm, out, filled, ok⟩
  | succ k ih =>
    obtain ⟨r, hm', eq, _, ok'⟩ := ok
    obtain ⟨r', hm'', eq', filled'⟩ := filledTo_createMutex filled (by omega)
    rw [eq'] at eq
    cases eq
    have final := ih filled' (by omega) ok'
    rwa [show n + 1 + k = n + (k + 1) by omega] at final

end Odin32.Handles
