import Odin32.OverlappedSound

/-! # Runs of the handler

Every step of every thread keeps the places of the requests and the wake-ups of the workers,
as long as no worker deletes a request that a `CancelIo` has still to mark and no poll handler
asks for a wait without an end. -/

set_option autoImplicit false

namespace Odin32.Overlapped

open LinkedList

/-- What holds between two steps. -/
def Steady (s : State) : Prop := (∃ queue place, Inv s queue place) ∧ Awake s

section Client

variable {s : State} {queue : Index → List Ref} {place : Ref → Option Place} {t : ℕ} {c : Call}

theorem submit_steady (inv : Inv s queue place) (awake : Awake s)
    (at_t : s.calls[t]? = some .idle) (index : Index)
    (present : (index = .poll → s.device.lpPollHandler = true) →
      s.device.workers index ≠ .absent) (dwAsyncType : ℕ) (hHandle : Handle)
    (lpdwResult lpOverlapped : Option Addr) (mem : Bool) :
    Steady (s.submit t index dwAsyncType hHandle lpdwResult lpOverlapped mem) := by
  obtain ⟨place', inv'⟩ :=
    inv.submit at_t index dwAsyncType hHandle lpdwResult lpOverlapped mem
  refine ⟨⟨queue, place', inv'⟩, ?_⟩
  unfold State.submit
  split
  · exact awake.reply at_t (fun _ _ _ eq => by cases eq) _
  split
  · exact awake.reply at_t (fun _ _ _ eq => by cases eq) _
  split
  · exact awake.reply at_t (fun _ _ _ eq => by cases eq) _
  rename_i polls
  split
  · exact awake.reply at_t (fun _ _ _ eq => by cases eq) _
  refine awake.client at_t rfl rfl rfl rfl (fun _ set => set) (fun _ _ some => .inl some) ?_ ?_
  · intro i a ov eq
    cases eq
  · intro i eq
    cases eq
    apply present
    intro poll
    by_contra off
    exact polls ⟨poll, Bool.eq_false_iff.mpr off⟩

theorem cancelNext_steady (inv : Inv s queue place) (awake : Awake s) {h : Handle} {i : Index}
    (at_t : s.calls[t]? = some (.cancelling h i)) : Steady (s.cancelNext t h i) := by
  have go : ∀ j, Steady (s.goto t (.cancelling h j)) := fun j =>
    ⟨⟨queue, place, inv.go at_t rfl (fun _ eq => by cases eq) fun _ eq => by cases eq⟩,
      awake.go at_t (fun _ _ _ eq => by cases eq) fun _ eq => by cases eq⟩
  cases i with
  | read => exact go .write
  | write => exact go .poll
  | poll => exact go .busy
  | busy =>
    exact ⟨⟨queue, place, inv.reply at_t rfl _⟩,
      awake.reply at_t (fun _ _ _ eq => by cases eq) _⟩

theorem cancelling_steady (inv : Inv s queue place) (awake : Awake s) {h : Handle} {i : Index}
    (at_t : s.calls[t]? = some (.cancelling h i)) {r : Except Trap State}
    (stepped : stepClient s t (.cancelling h i) .proceed = some r) :
    ∃ s', r = .ok s' ∧ Steady s' := by
  obtain rfl := Option.some.inj stepped
  rcases findAndRemoveRequest_spec h (inv.lists.chain i) (inv.lists.nodup i) (inv.queue_lt i) with
    ⟨none, -⟩ | ⟨s', a, l₁, l₂, found, split, done, -⟩
  · rw [none]
    exact ⟨_, rfl, cancelNext_steady inv awake at_t⟩
  · rw [found]
    refine ⟨_, rfl, ?_, ?_⟩
    · by_cases busy : i = .busy
      · subst busy
        exact ⟨_, _, inv.cancelBusy at_t split done⟩
      · exact ⟨_, _, inv.cancelQueued at_t busy split done⟩
    · have head : s.pending i = none → False := by
        intro empty
        have eq := (inv.lists.chain i).head_eq
        rw [empty, split] at eq
        cases l₁ <;> cases eq
      have elsewhere := done.elsewhere
      obtain ⟨heap', pending', rfl⟩ :
          ∃ heap' pending', s' = { s with heap := heap', pending := pending' } :=
        ⟨_, _, done.same⟩
      refine awake.client at_t rfl rfl rfl rfl (fun _ set => set) ?_ ?_ ?_
      · intro j _ some
        by_cases same : j = i
        · subst same
          exact .inl head
        · left
          rw [← elsewhere j same]
          exact some
      · intro j b ov eq
        cases eq
      · intro j eq
        cases eq

theorem adding_steady (inv : Inv s queue place) (awake : Awake s) {i : Index} {a : Ref}
    {ov : Addr} (at_t : s.calls[t]? = some (.adding i a ov)) {r : Except Trap State}
    (stepped : stepClient s t (.adding i a ov) .proceed = some r) :
    ∃ s', r = .ok s' ∧ Steady s' := by
  obtain rfl := Option.some.inj stepped
  have mem := List.mem_of_getElem? at_t
  have present : s.device.workers i ≠ .absent := awake.targets _ mem i rfl
  have notBusy : i ≠ .busy := by
    rintro rfl
    exact present s.device.workers_busy
  obtain ⟨r, live, last⟩ := inv.fresh _ mem a rfl
  have off : a ∉ queue i := fun inside =>
    inv.lists.not_client inside t (inv.owns_place at_t rfl)
  obtain ⟨s', added, done⟩ :=
    addRequest_spec (inv.lists.chain i) (inv.lists.nodup i) (inv.queue_lt i) live last off
  rw [added]
  refine ⟨_, rfl, ⟨_, _, inv.add at_t notBusy done⟩, ?_⟩
  have elsewhere := done.elsewhere
  obtain ⟨heap', pending', rfl⟩ :
      ∃ heap' pending', s' = { s with heap := heap', pending := pending' } :=
    ⟨_, _, done.same⟩
  refine awake.client at_t rfl rfl rfl rfl (fun _ set => set) ?_ ?_ ?_
  · intro j _ some
    by_cases same : j = i
    · subst same
      exact .inr ⟨present, a, ov, rfl⟩
    · left
      rw [← elsewhere j same]
      exact some
  · intro j b ov' eq
    cases eq
  · intro j eq
    cases eq

theorem stepClient_steady (inv : Inv s queue place) (awake : Awake s)
    (at_t : s.calls[t]? = some c) {act : ClientAction} {r : Except Trap State}
    (stepped : stepClient s t c act = some r) : ∃ s', r = .ok s' ∧ Steady s' := by
  have quiet : ∀ {d : Call}, (∀ i a ov, d ≠ .waking i a ov) → c = d →
      ∀ i a ov, c ≠ .waking i a ov := fun apart same => same ▸ apart
  unfold stepClient at stepped
  split at stepped
  case h_1 hHandle lpOverlapped mem =>
    obtain rfl := Option.some.inj stepped
    refine ⟨_, rfl, submit_steady inv awake at_t _ (fun _ => ?_) _ _ _ _ _⟩
    simp [Device.workers]
  case h_2 hHandle lpOverlapped mem =>
    obtain rfl := Option.some.inj stepped
    exact ⟨_, rfl, submit_steady inv awake at_t _ (fun _ => s.device.writeIndex_worker) _ _ _ _ _⟩
  case h_3 hHandle lpfdwEvtMask lpOverlapped mem =>
    obtain rfl := Option.some.inj stepped
    refine ⟨_, rfl, submit_steady inv awake at_t _ (fun polls => ?_) _ _ _ _ _⟩
    simp [Device.workers, polls rfl]
  case h_4 hHandle =>
    obtain rfl := Option.some.inj stepped
    exact ⟨_, rfl, ⟨_, _, inv.go at_t rfl (fun _ eq => by cases eq) fun _ eq => by cases eq⟩,
      awake.go at_t (fun _ _ _ eq => by cases eq) fun _ eq => by cases eq⟩
  case h_5 i a ov =>
    obtain rfl := Option.some.inj stepped
    have target : s.device.workers i ≠ .absent :=
      awake.targets _ (List.mem_of_getElem? at_t) i rfl
    have inv' : Inv { s with event := Function.update s.event (s.overlapped ov).hEvent false }
        queue place := ⟨inv.lists, inv.owners, inv.heap, inv.fresh, inv.logs, inv.safe⟩
    have awake' : Awake { s with event := Function.update s.event (s.overlapped ov).hEvent false } :=
      ⟨awake.wake, awake.workers, awake.exit, awake.targets, awake.lists, awake.waits⟩
    refine ⟨_, rfl, ⟨queue, place, inv'.go at_t ?_ ?_ ?_⟩, awake'.go at_t ?_ ?_⟩
    · split <;> rfl
    · intro b eq
      split at eq <;> cases eq
    · intro b eq
      split at eq <;> exact eq
    · intro j b ov' eq
      cases eq
    · intro j eq
      split at eq
      · rename_i poll
        cases eq
        rw [← poll]
        exact target
      · cases eq
        exact target
  case h_6 a ov dwLastError dwResult =>
    obtain rfl := Option.some.inj stepped
    obtain ⟨r, live⟩ := inv.owns_live at_t rfl
    rw [deref_live live]
    by_cases pending : dwLastError = errorIoPending
    · refine ⟨s.goto t (.adding .poll a ov), ?_, ⟨queue, place, ?_⟩, ?_⟩
      · simp only [bind, Except.bind, pure, Except.pure, pending]
        rfl
      · exact inv.go at_t rfl (fun _ eq => by cases eq) fun _ eq => eq
      · apply awake.go at_t (fun _ _ _ eq => by cases eq)
        intro i eq
        cases eq
        exact awake.targets _ (List.mem_of_getElem? at_t) .poll rfl
    · refine ⟨((s.store ov dwLastError dwResult).storeResult r.lpdwResult dwResult).goto t
        (.signalling a ov dwLastError), ?_, ⟨queue, place, ?_⟩, ?_⟩
      · simp only [bind, Except.bind, pure, Except.pure, if_pos pending]
      · have inv' := (inv.store ov dwLastError dwResult).storeResult r.lpdwResult dwResult
        have calls : ((s.store ov dwLastError dwResult).storeResult r.lpdwResult
            dwResult).calls[t]? = some (.polling a ov) := by
          cases r.lpdwResult <;> exact at_t
        exact inv'.go calls rfl (fun _ eq => by cases eq) fun _ eq => by cases eq
      · cases r.lpdwResult <;>
          exact awake.client at_t rfl rfl rfl rfl (fun _ set => set) (fun _ _ some => .inl some)
            (fun _ _ _ eq => by cases eq) fun _ eq => by cases eq
  case h_7 a ov error =>
    obtain rfl := Option.some.inj stepped
    have inv' : Inv (s.signal a ov) queue place :=
      ⟨inv.lists, inv.owners, inv.heap, inv.fresh, inv.logs, inv.safe⟩
    refine ⟨_, rfl, ⟨_, _, inv'.go at_t rfl (fun _ eq => by cases eq) fun _ eq => by cases eq⟩, ?_⟩
    exact awake.client at_t rfl rfl rfl rfl (fun _ set => set) (fun _ _ some => .inl some)
      (fun _ _ _ eq => by cases eq) fun _ eq => by cases eq
  case h_8 a error =>
    obtain rfl := Option.some.inj stepped
    obtain ⟨r, live⟩ := inv.owns_live at_t rfl
    rw [delete_live live]
    have inv' : Inv ({ s with
        heap := Function.update s.heap a none, deletions := s.deletions ++ [a] }.goto t .idle) queue
        (Function.update place a none) := inv.delete at_t live rfl rfl rfl rfl rfl
    refine ⟨_, rfl, ⟨_, _, inv'.lists, inv'.owners, inv'.heap, inv'.fresh, inv'.logs, inv'.safe⟩, ?_⟩
    exact awake.client at_t rfl rfl rfl rfl (fun _ set => set)
      (fun _ _ some => .inl some) (fun _ _ _ eq => by cases eq) fun _ eq => by cases eq
  case h_9 i a ov => exact adding_steady inv awake at_t stepped
  case h_10 i a ov =>
    obtain rfl := Option.some.inj stepped
    have idle := inv.reply at_t rfl (.pending a ov)
    refine ⟨_, rfl, ⟨_, _, idle.lists, idle.owners, idle.heap, idle.fresh, idle.logs, idle.safe⟩, ?_⟩
    have wakeup : ∀ j, s.wakeup j = true → Function.update s.wakeup i true j = true := by
      intro j set
      by_cases same : j = i
      · subst same
        exact Function.update_self ..
      · rw [Function.update_of_ne same]
        exact set
    refine awake.client at_t rfl rfl rfl rfl wakeup (fun _ _ some => .inl some) ?_
      fun _ eq => by cases eq
    intro j b ov' eq
    cases eq
    exact Function.update_self ..
  case h_11 h i => exact cancelling_steady inv awake at_t stepped
  case h_12 h i a =>
    obtain rfl := Option.some.inj stepped
    obtain ⟨r, live⟩ : ∃ r, s.heap a = some r := by
      by_cases busy : i = .busy
      · subst busy
        exact inv.borrows_live (List.mem_of_getElem? at_t) rfl
      · exact inv.owns_live at_t (if_neg busy)
    rw [write_live live]
    refine ⟨_, rfl, ⟨_, _, (inv.write (f := fun r => { r with fCancelled := true }) live rfl).go at_t rfl ?_ fun _ eq => by cases eq⟩, ?_⟩
    · intro b borrows
      cases i <;> exact borrows
    · exact awake.client at_t rfl rfl rfl rfl (fun _ set => set) (fun _ _ some => .inl some)
        (fun _ _ _ eq => by cases eq) fun _ eq => by cases eq
  case h_13 h i a =>
    obtain rfl := Option.some.inj stepped
    obtain ⟨r, live⟩ : ∃ r, s.heap a = some r := by
      by_cases busy : i = .busy
      · subst busy
        exact inv.borrows_live (List.mem_of_getElem? at_t) rfl
      · exact inv.owns_live at_t (if_neg busy)
    rw [deref_live live]
    refine ⟨_, rfl, ⟨_, _, (inv.store _ _ _).go at_t rfl (fun _ eq => by cases eq) fun _ eq =>
      by cases eq⟩, ?_⟩
    exact awake.client at_t rfl rfl rfl rfl (fun _ set => set) (fun _ _ some => .inl some)
      (fun _ _ _ eq => by cases eq) fun _ eq => by cases eq
  case h_14 h i a =>
    obtain rfl := Option.some.inj stepped
    have inv' : Inv { s with hEventCancel := true } queue place :=
      ⟨inv.lists, inv.owners, inv.heap, inv.fresh, inv.logs, inv.safe⟩
    refine ⟨_, rfl, ⟨_, _, inv'.go at_t ?_ ?_ ?_⟩, ?_⟩
    · by_cases busy : i = .busy
      · simp [busy, Call.owns]
      · simp [busy, Call.owns]
    · intro b eq
      split at eq <;> cases eq
    · intro b eq
      split at eq <;> cases eq
    · refine awake.client at_t rfl rfl rfl rfl (fun _ set => set) (fun _ _ some => .inl some)
        (fun _ _ _ eq => by cases eq) ?_
      intro j eq
      split at eq <;> cases eq
  case h_15 h i a =>
    obtain rfl := Option.some.inj stepped
    obtain ⟨r, live⟩ := inv.owns_live at_t rfl
    rw [delete_live live]
    refine ⟨_, rfl, ⟨_, _, inv.delete at_t live rfl rfl rfl rfl rfl⟩, ?_⟩
    exact awake.client at_t rfl rfl rfl rfl (fun _ set => set) (fun _ _ some => .inl some)
      (fun _ _ _ eq => by cases eq) fun _ eq => by cases eq
  case h_16 => cases stepped

end Client

/-! ## Workers -/

/-- What a step needs: the request a worker deletes is not one that a `CancelIo` has still to
write to, and a poll handler does not ask for a wait without an end. -/
def StepFits (s : State) : Op → Prop
  | .worker w .proceed => ∀ a, s.worker w = .deleting a → ∀ c ∈ s.calls, c.borrows ≠ some a
  | .worker w (.handlerReturns dwLastError _ dwTimeOut) => ∀ a ov, s.worker w = .polling a ov →
    dwLastError = errorIoPending → dwTimeOut ≠ infinite
  | _ => True

section Worker

variable {s : State} {queue : Index → List Ref} {place : Ref → Option Place} {w : Index}
  {p : Worker}

theorem Awake.not_busy (awake : Awake s) (was : s.worker w ≠ .absent) : w ≠ .busy := by
  rintro rfl
  exact was ((awake.workers .busy).2.mpr s.device.workers_busy)

theorem work_steady (inv : Inv s queue place) (awake : Awake s) (at_w : s.worker w = p)
    {p' : Worker} (was : p ≠ .absent) (holds : p'.holds = p.holds) (present : p' ≠ .absent)
    (runs : p' ≠ .exited) (stays : ∀ a, p' ≠ .deleting a)
    (waits : ∀ a ov n, p' = .pollWaiting a ov n → n ≠ infinite)
    (asleep : p' = .waiting → s.pending w = none) : Steady (s.work w p') := by
  refine ⟨⟨queue, place, inv.work (holds.trans (congrArg Worker.holds at_w.symm)) ?_⟩, ?_⟩
  · intro b eq
    exact absurd eq (stays b)
  · exact awake.work (by rw [at_w]; exact was) present runs waits asleep

theorem looking_steady (inv : Inv s queue place) (awake : Awake s)
    (at_w : s.worker w = .looking) {r : Except Trap State}
    (stepped : stepWorker s w .looking .proceed = some r) : ∃ s', r = .ok s' ∧ Steady s' := by
  have was : s.worker w ≠ .absent := by
    rw [at_w]
    simp
  unfold stepWorker at stepped
  dsimp only at stepped
  split at stepped
  · rename_i empty
    obtain rfl := Option.some.inj stepped
    refine ⟨_, rfl, work_steady inv awake at_w ?_ ?_ ?_ ?_ ?_ ?_ ?_⟩
    all_goals simp [Worker.holds, empty]
  · rename_i a some
    obtain rfl := Option.some.inj stepped
    have notBusy := awake.not_busy was
    have head := (inv.lists.chain w).head_eq
    rw [some] at head
    obtain ⟨rest, split⟩ : ∃ rest, queue w = a :: rest := by
      cases eq : queue w with
      | nil =>
        rw [eq] at head
        cases head
      | cons b rest =>
        rw [eq] at head
        cases head
        exact ⟨rest, rfl⟩
    obtain ⟨r, live⟩ := (inv.lists.chain w).live (a := a) (by rw [split]; simp)
    have live' : (s.setPending w r.next).heap a = Option.some r := live
    rw [deref_live live]
    simp only [bind, Except.bind, pure, Except.pure, State.setNext, write_live live']
    have free : (s.worker w).holds = none := by
      rw [at_w]
      rfl
    refine ⟨_, rfl, ⟨_, _, inv.serve notBusy free split live⟩, ?_⟩
    refine awake.worker rfl rfl rfl rfl (fun _ _ => rfl) ?_ was ?_ ?_ ?_ ?_
    · intro i iNotBusy some'
      change Function.update (Function.update s.pending w r.next) .busy (Option.some a) i ≠ none
        at some'
      rw [Function.update_of_ne iNotBusy] at some'
      by_cases same : i = w
      · subst same
        rw [some]
        simp
      · rwa [Function.update_of_ne same] at some'
    · simp
    · simp
    · intro b ov n eq
      cases eq
    · intro eq
      cases eq

theorem removing_steady (inv : Inv s queue place) (awake : Awake s) {a : Ref}
    (at_w : s.worker w = .removing a) {r : Except Trap State}
    (stepped : stepWorker s w (.removing a) .proceed = some r) :
    ∃ s', r = .ok s' ∧ Steady s' := by
  have was : s.worker w ≠ .absent := by
    rw [at_w]
    simp
  obtain rfl := Option.some.inj stepped
  rcases removeRequest_spec a (inv.lists.chain .busy) (inv.lists.nodup .busy)
    (inv.queue_lt .busy) with ⟨removed, off⟩ | ⟨s', l₁, l₂, removed, split, done⟩
  · rw [removed]
    refine ⟨_, rfl, ⟨queue, place, inv.work ?_ ?_⟩, awake.work was ?_ ?_ ?_ ?_⟩
    · rw [at_w]
      rfl
    · intro b eq
      cases eq
      exact off
    all_goals simp
  · rw [removed]
    refine ⟨_, rfl, ⟨_, _, inv.remove at_w split done⟩, ?_⟩
    have elsewhere := done.elsewhere
    obtain ⟨heap', pending', rfl⟩ :
        ∃ heap' pending', s' = { s with heap := heap', pending := pending' } :=
      ⟨_, _, done.same⟩
    refine awake.worker rfl rfl rfl rfl (fun _ _ => rfl) ?_ was ?_ ?_ ?_ ?_
    · intro i notBusy some
      rw [← elsewhere i notBusy]
      exact some
    · simp
    · simp
    · intro b ov n eq
      cases eq
    · intro eq
      cases eq

theorem stepWorker_steady (inv : Inv s queue place) (awake : Awake s) (at_w : s.worker w = p)
    {act : WorkerAction} (fits : StepFits s (.worker w act)) {r : Except Trap State}
    (stepped : stepWorker s w p act = some r) : ∃ s', r = .ok s' ∧ Steady s' := by
  unfold stepWorker at stepped
  split at stepped
  case h_1 =>
    have inv' : Inv { s with wakeup := Function.update s.wakeup w false } queue place :=
      ⟨inv.lists, inv.owners, inv.heap, inv.fresh, inv.logs, inv.safe⟩
    split at stepped
    · obtain rfl := Option.some.inj stepped
      refine ⟨_, rfl, ⟨queue, place, inv'.work ?_ ?_⟩, ?_⟩
      · change Worker.holds .looking = (s.worker w).holds
        rw [at_w]
        rfl
      · intro b eq
        cases eq
      · refine awake.worker rfl rfl rfl rfl ?_ (fun _ _ some => some) ?_ ?_ ?_ ?_ ?_
        · exact fun i ne => Function.update_of_ne ne ..
        all_goals simp [at_w]
    · rw [awake.exit] at stepped
      cases stepped
  case h_2 => exact looking_steady inv awake at_w stepped
  case h_3 a =>
    obtain rfl := Option.some.inj stepped
    obtain ⟨r, live⟩ := inv.holds_live (w := w) (a := a) (by rw [at_w]; rfl)
    rw [deref_live live]
    by_cases poll : w = .poll
    · refine ⟨s.work w (.polling a r.lpOverlapped), ?_, ?_⟩
      · simp only [bind, Except.bind, pure, Except.pure, if_pos poll]
      · refine work_steady inv awake at_w ?_ rfl ?_ ?_ ?_ ?_ ?_
        all_goals simp
    · refine ⟨s.work w (.handling a r.lpOverlapped
        (r.dwAsyncType == asyncioRead || !s.device.lpWriteHandler)), ?_, ?_⟩
      · simp only [bind, Except.bind, pure, Except.pure, if_neg poll]
      · refine work_steady inv awake at_w ?_ rfl ?_ ?_ ?_ ?_ ?_
        all_goals simp
  case h_4 a ov reads =>
    obtain rfl := Option.some.inj stepped
    obtain ⟨r, live⟩ := inv.holds_live (w := w) (a := a) (by rw [at_w]; rfl)
    rw [deref_live live]
    exact ⟨s, rfl, ⟨queue, place, inv⟩, awake⟩
  case h_5 a ov reads dwLastError dwResult dwTimeOut =>
    obtain rfl := Option.some.inj stepped
    obtain ⟨r, live⟩ := inv.holds_live (w := w) (a := a) (by rw [at_w]; rfl)
    rw [write_live live]
    have inv' := inv.write (f := fun r => { r with dwLastError := dwLastError }) live rfl
    have awake' : Awake { s with
        heap := Function.update s.heap a (some { r with dwLastError := dwLastError }) } :=
      ⟨awake.wake, awake.workers, awake.exit, awake.targets, awake.lists, awake.waits⟩
    refine ⟨_, rfl, work_steady inv' awake' at_w ?_ rfl ?_ ?_ ?_ ?_ ?_⟩
    all_goals simp
  case h_6 a ov =>
    obtain rfl := Option.some.inj stepped
    obtain ⟨r, live⟩ := inv.holds_live (w := w) (a := a) (by rw [at_w]; rfl)
    rw [deref_live live]
    exact ⟨s, rfl, ⟨queue, place, inv⟩, awake⟩
  case h_7 a ov dwLastError dwResult dwTimeOut =>
    obtain rfl := Option.some.inj stepped
    obtain ⟨r, live⟩ := inv.holds_live (w := w) (a := a) (by rw [at_w]; rfl)
    rw [write_live live]
    have inv' := inv.write (f := fun r => { r with dwLastError := dwLastError }) live rfl
    have awake' : Awake { s with
        heap := Function.update s.heap a (some { r with dwLastError := dwLastError }) } :=
      ⟨awake.wake, awake.workers, awake.exit, awake.targets, awake.lists, awake.waits⟩
    by_cases done : dwLastError ≠ errorIoPending ∨ dwTimeOut = 0
    · refine ⟨State.work { s with
          heap := Function.update s.heap a (some { r with dwLastError := dwLastError }) } w
          (.returned a ov dwResult), ?_, ?_⟩
      · simp only [bind, Except.bind, pure, Except.pure, if_pos done]
      · refine work_steady inv' awake' at_w ?_ rfl ?_ ?_ ?_ ?_ ?_
        all_goals simp
    · refine ⟨State.work { s with
          heap := Function.update s.heap a (some { r with dwLastError := dwLastError }) } w
          (.pollWaiting a ov dwTimeOut), ?_, ?_⟩
      · simp only [bind, Except.bind, pure, Except.pure, if_neg done]
      · refine work_steady inv' awake' at_w ?_ rfl ?_ ?_ ?_ ?_ ?_
        case refine_5 =>
          intro b ov' n eq
          cases eq
          exact fits a ov at_w (Decidable.of_not_not fun ne => done (.inl ne))
        all_goals simp
  case h_8 a ov n =>
    have go : ∀ aborted, Steady ({ s with aborted := aborted }.work w (.removing a)) := by
      intro aborted
      have inv' : Inv { s with aborted := aborted } queue place :=
        ⟨inv.lists, inv.owners, inv.heap, inv.fresh, inv.logs, inv.safe⟩
      have awake' : Awake { s with aborted := aborted } :=
        ⟨awake.wake, awake.workers, awake.exit, awake.targets, awake.lists, awake.waits⟩
      refine work_steady inv' awake' at_w ?_ rfl ?_ ?_ ?_ ?_ ?_
      all_goals simp
    split at stepped
    · obtain rfl := Option.some.inj stepped
      exact ⟨_, rfl, go _⟩
    · split at stepped
      · obtain rfl := Option.some.inj stepped
        exact ⟨_, rfl, go s.aborted⟩
      · cases stepped
  case h_9 a ov n =>
    split at stepped
    · cases stepped
    · obtain rfl := Option.some.inj stepped
      refine ⟨_, rfl, work_steady inv awake at_w ?_ rfl ?_ ?_ ?_ ?_ ?_⟩
      all_goals simp
  case h_10 a ov dwResult =>
    obtain rfl := Option.some.inj stepped
    obtain ⟨r, live⟩ := inv.holds_live (w := w) (a := a) (by rw [at_w]; rfl)
    rw [deref_live live]
    refine ⟨_, rfl, ?_⟩
    cases r.fCancelled with
    | true =>
      refine work_steady inv awake at_w ?_ rfl ?_ ?_ ?_ ?_ ?_
      all_goals simp
    | false =>
      refine work_steady inv awake at_w ?_ rfl ?_ ?_ ?_ ?_ ?_
      all_goals simp
  case h_11 a ov dwResult =>
    obtain rfl := Option.some.inj stepped
    obtain ⟨r, live⟩ := inv.holds_live (w := w) (a := a) (by rw [at_w]; rfl)
    rw [deref_live live]
    have stored : ∀ o res, Steady ({ s with overlapped := o, results := res }.work w
        (.signalling a ov)) := by
      intro o res
      have inv' : Inv { s with overlapped := o, results := res } queue place :=
        ⟨inv.lists, inv.owners, inv.heap, inv.fresh, inv.logs, inv.safe⟩
      have awake' : Awake { s with overlapped := o, results := res } :=
        ⟨awake.wake, awake.workers, awake.exit, awake.targets, awake.lists, awake.waits⟩
      refine work_steady inv' awake' at_w ?_ rfl ?_ ?_ ?_ ?_ ?_
      all_goals simp
    refine ⟨_, rfl, ?_⟩
    by_cases poll : w = .poll
    · simp only [if_pos poll]
      cases r.lpdwResult <;> exact stored _ _
    · simp only [if_neg poll]
      exact stored _ _
  case h_12 a ov =>
    obtain rfl := Option.some.inj stepped
    have inv' : Inv (s.signal a ov) queue place :=
      ⟨inv.lists, inv.owners, inv.heap, inv.fresh, inv.logs, inv.safe⟩
    have awake' : Awake (s.signal a ov) :=
      ⟨awake.wake, awake.workers, awake.exit, awake.targets, awake.lists, awake.waits⟩
    refine ⟨_, rfl, work_steady inv' awake' at_w ?_ rfl ?_ ?_ ?_ ?_ ?_⟩
    all_goals simp
  case h_13 a => exact removing_steady inv awake at_w stepped
  case h_14 a =>
    obtain rfl := Option.some.inj stepped
    obtain ⟨r, live⟩ := inv.holds_live (w := w) (a := a) (by rw [at_w]; rfl)
    rw [delete_live live]
    refine ⟨_, rfl, ⟨_, _, inv.workDelete at_w live (fits a at_w)⟩, ?_⟩
    refine awake.worker rfl rfl rfl rfl (fun _ _ => rfl) (fun _ _ some => some) ?_ ?_ ?_ ?_ ?_
    all_goals simp [at_w]
  case h_15 => cases stepped

end Worker

theorem step_steady {s s' : State} {op : Op} (steady : Steady s) (fits : StepFits s op)
    (stepped : step s op = some s') : Steady s' := by
  obtain ⟨⟨queue, place, inv⟩, awake⟩ := steady
  unfold step at stepped
  rw [inv.safe] at stepped
  simp only [Bool.false_eq_true, if_false] at stepped
  cases op with
  | client t act =>
    obtain ⟨c, at_t, stepped⟩ := Option.bind_eq_some_iff.mp stepped
    obtain ⟨r, result, absorbed⟩ := Option.bind_eq_some_iff.mp stepped
    obtain ⟨s₁, rfl, steady⟩ := stepClient_steady inv awake at_t result
    obtain rfl := Option.some.inj absorbed
    exact steady
  | worker w act =>
    obtain ⟨r, result, absorbed⟩ := Option.bind_eq_some_iff.mp stepped
    obtain ⟨s₁, rfl, steady⟩ := stepWorker_steady inv awake rfl fits result
    obtain rfl := Option.some.inj absorbed
    exact steady

/-- The steps of a run fit, one after the other. -/
def StepsFit (fits : State → Op → Prop) : State → List Op → Prop
  | _, [] => True
  | s, op :: ops => fits s op ∧ ∀ s', step s op = some s' → StepsFit fits s' ops

theorem run_keeps {good : State → Prop} {fits : State → Op → Prop}
    (keeps : ∀ s op s', good s → fits s op → step s op = some s' → good s') {s s' : State}
    {ops : List Op} (start : good s) (fit : StepsFit fits s ops) (ran : run ops s = some s') :
    good s' := by
  induction ops generalizing s with
  | nil =>
    obtain rfl : s = s' := Option.some.inj ran
    exact start
  | cons op ops ih =>
    obtain ⟨s₁, stepped, rest⟩ := Option.bind_eq_some_iff.mp ran
    exact ih (keeps s op s₁ start fit.1 stepped) (fit.2 s₁ stepped) rest

theorem steady_init (device : Device) (threads : ℕ) (overlapped : Addr → OverlappedIo) :
    Steady (init device threads overlapped) :=
  ⟨⟨_, _, inv_init device threads overlapped⟩, awake_init device threads overlapped⟩

/-! ## What is left in the end -/

section Quiescent

variable {s : State} {queue : Index → List Ref} {place : Ref → Option Place} {w : Index}

theorem exists_stepWorker (awake : Awake s) (notWaiting : s.worker w ≠ .waiting)
    (present : s.worker w ≠ .absent) :
    ∃ act r, stepWorker s w (s.worker w) act = some r ∧
      ((∀ c ∈ s.calls, c.borrows = none) → StepFits s (.worker w act)) := by
  have free : (∀ c ∈ s.calls, c.borrows = none) → StepFits s (.worker w .proceed) := by
    intro none a _ c mem borrows
    rw [none c mem] at borrows
    cases borrows
  have answers : StepFits s (.worker w (.handlerReturns errorSuccess 0 0)) := by
    intro a ov _ eq
    cases eq
  cases at_w : s.worker w with
  | absent => exact absurd at_w present
  | waiting => exact absurd at_w notWaiting
  | exited => exact absurd at_w (awake.workers w).1
  | looking =>
    cases empty : s.pending w with
    | none => exact ⟨.proceed, .ok (s.work w .waiting), by simp only [stepWorker, empty], free⟩
    | some a => exact ⟨.proceed, _, by simp only [stepWorker, empty]; rfl, free⟩
  | taken a => exact ⟨.proceed, _, rfl, free⟩
  | handling a ov reads => exact ⟨.handlerReturns errorSuccess 0 0, _, rfl, fun _ => answers⟩
  | polling a ov => exact ⟨.handlerReturns errorSuccess 0 0, _, rfl, fun _ => answers⟩
  | pollWaiting a ov n =>
    by_cases cancelled : s.hEventCancel = true
    · exact ⟨.proceed, _, by simp only [stepWorker, if_pos cancelled]; rfl, free⟩
    · refine ⟨.timeout, .ok (s.work w (.polling a ov)), ?_, fun _ => trivial⟩
      have waits := awake.waits w a ov n at_w
      simp [stepWorker, cancelled, awake.exit, waits]
  | returned a ov dwResult => exact ⟨.proceed, _, rfl, free⟩
  | storing a ov dwResult => exact ⟨.proceed, _, rfl, free⟩
  | signalling a ov => exact ⟨.proceed, _, rfl, free⟩
  | removing a => exact ⟨.proceed, _, rfl, free⟩
  | deleting a => exact ⟨.proceed, _, rfl, free⟩

theorem step_worker_ne_none (inv : Inv s queue place) (awake : Awake s) {act : WorkerAction}
    {r : Except Trap State} (fits : StepFits s (.worker w act))
    (can : stepWorker s w (s.worker w) act = some r) : step s (.worker w act) ≠ none := by
  obtain ⟨s', rfl, -⟩ := stepWorker_steady inv awake rfl fits can
  unfold step
  rw [inv.safe]
  simp [can, State.absorb]

theorem State.Quiescent.waiting (quiescent : s.Quiescent) (inv : Inv s queue place) (awake : Awake s)
    (present : s.worker w ≠ .absent) : s.worker w = .waiting := by
  by_contra notWaiting
  obtain ⟨act, r, can, fits⟩ := exists_stepWorker awake notWaiting present
  have idle : ∀ c ∈ s.calls, c.borrows = none := by
    intro c mem
    rw [quiescent.1 c mem]
    rfl
  exact step_worker_ne_none inv awake (fits idle) can (quiescent.2 w act)

theorem State.Quiescent.empty (quiescent : s.Quiescent) (inv : Inv s queue place) (awake : Awake s)
    {i : Index} (notBusy : i ≠ .busy) : s.pending i = none := by
  by_contra some
  have present : s.worker i ≠ .absent := by
    intro absent
    exact awake.lists i notBusy some ((awake.workers i).2.mp absent)
  have waiting := quiescent.waiting inv awake present
  rcases awake.wake i notBusy some waiting with set | ⟨a, ov, mem⟩
  · have can : stepWorker s i (s.worker i) .proceed = Option.some (.ok
        ({ s with wakeup := Function.update s.wakeup i false }.work i .looking)) := by
      rw [waiting]
      simp only [stepWorker, if_pos set]
    have fits : StepFits s (.worker i .proceed) := by
      intro a at_w
      rw [waiting] at at_w
      cases at_w
    exact step_worker_ne_none inv awake fits can (quiescent.2 i .proceed)
  · cases quiescent.1 _ mem

theorem State.Quiescent.dead (quiescent : s.Quiescent) (inv : Inv s queue place) (awake : Awake s)
    (a : Ref) : s.heap a = none := by
  apply (inv.heap.live a).mp
  cases at_a : place a with
  | none => rfl
  | some p =>
    cases p with
    | client t =>
      obtain ⟨c, at_t, owns⟩ := (inv.owners.owned t a).mp at_a
      rw [quiescent.1 c (List.mem_of_getElem? at_t)] at owns
      cases owns
    | queue i =>
      obtain ⟨notBusy, mem⟩ := (inv.lists.queued i a).mp at_a
      have head := (inv.lists.chain i).head_eq
      rw [quiescent.empty inv awake notBusy] at head
      rw [List.head?_eq_none_iff.mp head.symm] at mem
      cases mem
    | worker w =>
      have holds := (inv.owners.held w a).mp at_a
      by_cases present : s.worker w = .absent
      · rw [present] at holds
        cases holds
      · rw [quiescent.waiting inv awake present] at holds
        cases holds

end Quiescent

/-- No request was used after its deletion or deleted twice, no request is on two lists, the
lists end, and when no thread can go on every request has been deleted. -/
structure State.Sound (s : State) : Prop where
  notUsed : s.usedDeleted = false
  once : s.deletions.Nodup
  lists : ∃ queue : Index → List Ref,
    (∀ i, Chain AsyncIoRequest.next s.heap (s.pending i) (queue i) ∧ (queue i).Nodup) ∧
    ∀ i j a, a ∈ queue i → a ∈ queue j → i = j
  ends : s.Quiescent → ∀ a < s.allocated, a ∈ s.deletions

theorem Steady.sound {s : State} (steady : Steady s) : s.Sound := by
  obtain ⟨⟨queue, place, inv⟩, awake⟩ := steady
  refine ⟨inv.safe, inv.heap.once, ⟨queue, fun i => ⟨inv.lists.chain i, inv.lists.nodup i⟩,
    fun i j a mem mem' => inv.lists.disjoint mem mem'⟩, ?_⟩
  intro quiescent a lt
  exact (inv.heap.deleted a lt).mp (quiescent.dead inv awake a)

/-- Any number of clients and the workers of any device, in any order: requests are deleted
once and not used afterwards. -/
theorem run_sound (device : Device) (threads : ℕ) (overlapped : Addr → OverlappedIo)
    (ops : List Op) (s : State)
    (fits : StepsFit StepFits (init device threads overlapped) ops)
    (ran : run ops (init device threads overlapped) = some s) : s.Sound :=
  have steady : Steady s :=
    run_keeps (fun _ _ _ => step_steady) (steady_init device threads overlapped) fits ran
  steady.sound

/-- A device that can only read. -/
def reader : Device := ⟨false, false, false⟩

def someOverlapped : Addr → OverlappedIo := fun _ => ⟨0, 0, 1⟩

/-- A read, up to the deletion of its request by the worker. -/
def readToDeleting : List Op :=
  [.client 0 (.readFile 1 (some 0) true), .client 0 .proceed, .client 0 .proceed,
    .client 0 .proceed, .worker .read .proceed, .worker .read .proceed,
    .worker .read .proceed, .worker .read (.handlerReturns 0 4 0), .worker .read .proceed,
    .worker .read .proceed, .worker .read .proceed]

theorem run_sound_read :
    ∃ s, run (readToDeleting ++ [.worker .read .proceed, .worker .read .proceed])
      (init reader 2 someOverlapped) = some s ∧ s.deletions = [0] ∧ s.Sound := by
  refine ⟨_, rfl, rfl, run_sound reader 2 someOverlapped
    (readToDeleting ++ [.worker .read .proceed, .worker .read .proceed]) _ ?_ rfl⟩
  have quiet : ∀ {s : State} {w : Index}, (∀ c ∈ s.calls, c.borrows = none) →
      StepFits s (.worker w .proceed) := by
    intro s w none a _ c mem borrows
    rw [none c mem] at borrows
    cases borrows
  refine ⟨trivial, ?_⟩; rintro _ ⟨⟩
  refine ⟨trivial, ?_⟩; rintro _ ⟨⟩
  refine ⟨trivial, ?_⟩; rintro _ ⟨⟩
  refine ⟨trivial, ?_⟩; rintro _ ⟨⟩
  refine ⟨quiet (by decide), ?_⟩; rintro _ ⟨⟩
  refine ⟨quiet (by decide), ?_⟩; rintro _ ⟨⟩
  refine ⟨quiet (by decide), ?_⟩; rintro _ ⟨⟩
  refine ⟨fun a ov at_w => (by cases at_w), ?_⟩; rintro _ ⟨⟩
  refine ⟨quiet (by decide), ?_⟩; rintro _ ⟨⟩
  refine ⟨quiet (by decide), ?_⟩; rintro _ ⟨⟩
  refine ⟨quiet (by decide), ?_⟩; rintro _ ⟨⟩
  refine ⟨quiet (by decide), ?_⟩; rintro _ ⟨⟩
  exact ⟨quiet (by decide), fun _ _ => trivial⟩

/-- `CancelIo` takes the request off the list of busy ones, the worker removes and deletes it,
and `CancelIo` marks what is no longer there. -/
theorem lateMark_not_sound : ¬ ∀ (device : Device) (threads : ℕ)
    (overlapped : Addr → OverlappedIo) (ops : List Op) (s : State),
    run ops (init device threads overlapped) = some s → s.Sound := by
  intro all
  have sound := all reader 2 someOverlapped
    (readToDeleting.dropLast ++ [.client 1 (.cancelIo 1), .client 1 .proceed, .client 1 .proceed,
      .client 1 .proceed, .client 1 .proceed, .worker .read .proceed, .worker .read .proceed,
      .worker .read .proceed, .client 1 .proceed]) _ rfl
  have notUsed := sound.notUsed
  cases notUsed

end Odin32.Overlapped
