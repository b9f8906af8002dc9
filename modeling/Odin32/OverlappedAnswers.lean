import Odin32.OverlappedComplete

/-! # Requests end with an answer

The steps of the threads, as long as `CancelIo` finds nothing to cancel, and what they leave
once no thread can go on. -/

set_option autoImplicit false

namespace Odin32.Overlapped

open LinkedList

/-- The request is on the list. -/
def OnList (s : State) (i : Index) (a : Ref) : Prop :=
  ∃ cells, Chain AsyncIoRequest.next s.heap (s.pending i) cells ∧ a ∈ cells

/-- What a step needs: a search of `CancelIo` finds no request of its handle, and a handler
returns neither `STATUS_PENDING` nor a wait without an end. -/
def CompletesFits (s : State) : Op → Prop
  | .client t .proceed => ∀ hHandle i, s.calls[t]? = some (.cancelling hHandle i) →
    ∀ a r, OnList s i a → s.heap a = some r → r.hHandle ≠ hHandle
  | .client _ (.handlerReturns dwLastError _) => dwLastError ≠ statusPending
  | .worker w (.handlerReturns dwLastError _ dwTimeOut) => dwLastError ≠ statusPending ∧
    ∀ a ov, s.worker w = .polling a ov → dwLastError = errorIoPending → dwTimeOut ≠ infinite
  | _ => True

section Calm

variable {s s' : State} {t : ℕ} {c c' : Call} {w : Index} {p' : Worker}

/-- No request is cancelled or has `STATUS_PENDING` as its result. -/
def Plain (heap : Heap) : Prop :=
  ∀ a r, heap a = some r → r.fCancelled = false ∧ r.dwLastError ≠ statusPending

theorem Plain.relink {heap heap' : Heap} (plain : Plain heap) (same : SameData heap heap') :
    Plain heap' := by
  intro a r' live'
  cases live : heap a with
  | none =>
    rw [(same.none_iff a).mpr live] at live'
    cases live'
  | some r =>
    obtain ⟨n, eq⟩ := same.some live
    rw [eq] at live'
    cases live'
    exact plain a r live

theorem Calm.client (calm : Calm s) (worker : s'.worker = s.worker)
    (calls : s'.calls = s.calls.set t c') (cancelled : s'.cancelled = s.cancelled)
    (aborted : s'.aborted = s.aborted) (cancel : s'.hEventCancel = s.hEventCancel)
    (plain : Plain s'.heap) (targets : SameTargets s.heap s'.heap) (new : c'.cancels = false)
    (serves : ∀ a ov, c'.serves = some (a, ov) → ∃ r, s.heap a = some r ∧ r.lpOverlapped = ov) :
    Calm s' := by
  have moved : ∀ a ov, (∃ r, s.heap a = some r ∧ r.lpOverlapped = ov) →
      ∃ r, s'.heap a = some r ∧ r.lpOverlapped = ov := by
    rintro a ov ⟨r, live, rfl⟩
    exact targets.exists live
  constructor
  case calls =>
    intro d mem
    rw [calls] at mem
    rcases List.mem_or_eq_of_mem_set mem with old | rfl
    · exact calm.calls d old
    · exact new
  case cancelled => rw [cancelled, calm.cancelled]
  case aborted => rw [aborted, calm.aborted]
  case hEventCancel => rw [cancel, calm.hEventCancel]
  case requests => exact plain
  case workers =>
    intro w a ov eq
    rw [worker] at eq
    exact moved a ov (calm.workers w a ov eq)
  case clients =>
    intro d mem a ov eq
    rw [calls] at mem
    rcases List.mem_or_eq_of_mem_set mem with old | rfl
    · exact moved a ov (calm.clients d old a ov eq)
    · exact moved a ov (serves a ov eq)

theorem Calm.go (calm : Calm s) (new : c'.cancels = false)
    (serves : ∀ a ov, c'.serves = some (a, ov) → ∃ r, s.heap a = some r ∧ r.lpOverlapped = ov) :
    Calm (s.goto t c') :=
  calm.client rfl rfl rfl rfl rfl calm.requests (SameTargets.refl _) new serves

theorem Calm.reply (calm : Calm s) (r : Reply) : Calm (s.reply t r) := by
  refine calm.client rfl rfl rfl rfl rfl calm.requests (SameTargets.refl _) rfl ?_
  intro a ov eq
  cases eq

theorem Calm.worker (calm : Calm s) (calls : s'.calls = s.calls)
    (worker : s'.worker = Function.update s.worker w p') (cancelled : s'.cancelled = s.cancelled)
    (aborted : s'.aborted = s.aborted) (cancel : s'.hEventCancel = s.hEventCancel)
    (plain : Plain s'.heap) (targets : SameTargets s.heap s'.heap)
    (serves : ∀ a ov, p'.serves = some (a, ov) → ∃ r, s.heap a = some r ∧ r.lpOverlapped = ov) :
    Calm s' := by
  have moved : ∀ a ov, (∃ r, s.heap a = some r ∧ r.lpOverlapped = ov) →
      ∃ r, s'.heap a = some r ∧ r.lpOverlapped = ov := by
    rintro a ov ⟨r, live, rfl⟩
    exact targets.exists live
  constructor
  case calls =>
    rw [calls]
    exact calm.calls
  case cancelled => rw [cancelled, calm.cancelled]
  case aborted => rw [aborted, calm.aborted]
  case hEventCancel => rw [cancel, calm.hEventCancel]
  case requests => exact plain
  case workers =>
    intro v a ov eq
    rw [worker] at eq
    by_cases same : v = w
    · subst same
      rw [Function.update_self] at eq
      exact moved a ov (serves a ov eq)
    · rw [Function.update_of_ne same] at eq
      exact moved a ov (calm.workers v a ov eq)
  case clients =>
    intro d mem a ov eq
    rw [calls] at mem
    exact moved a ov (calm.clients d mem a ov eq)

theorem Calm.work (calm : Calm s)
    (serves : ∀ a ov, p'.serves = some (a, ov) → ∃ r, s.heap a = some r ∧ r.lpOverlapped = ov) :
    Calm (s.work w p') :=
  calm.worker rfl rfl rfl rfl rfl calm.requests (SameTargets.refl _) serves

theorem Calm.delete (calm : Calm s) {a : Ref} (deletions : List Ref)
    (workers : ∀ w ov, (s.worker w).serves ≠ some (a, ov))
    (clients : ∀ d ∈ s.calls, ∀ ov, d.serves ≠ some (a, ov)) :
    Calm { s with heap := Function.update s.heap a none, deletions := deletions } := by
  have others : ∀ b ov, b ≠ a → (∃ r, s.heap b = some r ∧ r.lpOverlapped = ov) →
      ∃ r, Function.update s.heap a none b = some r ∧ r.lpOverlapped = ov := by
    intro b ov ne found
    rw [Function.update_of_ne ne]
    exact found
  refine ⟨calm.calls, calm.cancelled, calm.aborted, calm.hEventCancel, ?_, ?_, ?_⟩
  · intro b r live
    change Function.update s.heap a none b = some r at live
    by_cases here : b = a
    · subst here
      rw [Function.update_self] at live
      cases live
    · rw [Function.update_of_ne here] at live
      exact calm.requests b r live
  · intro w b ov eq
    have ne : b ≠ a := by
      rintro rfl
      exact workers w ov eq
    exact others b ov ne (calm.workers w b ov eq)
  · intro d mem b ov eq
    have ne : b ≠ a := by
      rintro rfl
      exact clients d mem ov eq
    exact others b ov ne (calm.clients d mem b ov eq)

theorem Calm.borrows (calm : Calm s) {d : Call} (mem : d ∈ s.calls) : d.borrows = none := by
  have no := calm.calls d mem
  cases d <;> first | rfl | cases no

theorem CompletesFits.step (calm : Calm s) {op : Op} (fits : CompletesFits s op) :
    StepFits s op := by
  cases op with
  | client t act => trivial
  | worker w act =>
    cases act with
    | proceed =>
      intro a _ c mem borrows
      rw [calm.borrows mem] at borrows
      cases borrows
    | handlerReturns dwLastError dwResult dwTimeOut => exact fits.2
    | handlerReads => trivial
    | timeout => trivial

end Calm

theorem Worker.holds_of_serves {p : Worker} {a : Ref} {ov : Addr}
    (serves : p.serves = some (a, ov)) : p.holds = some a := by
  cases p <;> first | (cases serves; rfl) | cases serves

theorem Call.owns_of_serves {d : Call} {a : Ref} {ov : Addr}
    (serves : d.serves = some (a, ov)) : d.owns = some a := by
  cases d <;> first | (cases serves; rfl) | cases serves

def Answered (s : State) : Prop := Calm s ∧ Ledger s

section Client

variable {s : State} {queue : Index → List Ref} {place : Ref → Option Place} {t : ℕ} {c : Call}

theorem submit_answered (inv : Inv s queue place) (calm : Calm s) (ledger : Ledger s)
    (at_t : s.calls[t]? = some .idle) (index : Index) (dwAsyncType : ℕ) (hHandle : Handle)
    (lpdwResult lpOverlapped : Option Addr) (mem : Bool) :
    Answered (s.submit t index dwAsyncType hHandle lpdwResult lpOverlapped mem) := by
  have failed : ∀ e, Answered (s.reply t (.failed e)) := fun e =>
    ⟨calm.reply _, ledger.reply at_t rfl rfl fun _ _ eq => by cases eq⟩
  unfold State.submit
  split
  · exact failed _
  rename_i ov
  split
  · exact failed _
  split
  · exact failed _
  split
  · exact failed _
  have frontier := (inv.heap.frontier s.allocated (Nat.le_refl _)).1
  let r : AsyncIoRequest := ⟨dwAsyncType, hHandle, ov, lpdwResult, 0, false, none⟩
  have nobody : ∀ b, (∃ r, s.heap b = some r) → b ≠ s.allocated := by
    rintro b ⟨rb, live⟩ rfl
    rw [frontier] at live
    cases live
  have kept : ∀ b ov', (∃ rb, s.heap b = some rb ∧ rb.lpOverlapped = ov') →
      ∃ rb, Function.update s.heap s.allocated (some r) b = some rb ∧ rb.lpOverlapped = ov' := by
    rintro b ov' ⟨rb, live, eq⟩
    exact ⟨rb, by rw [Function.update_of_ne (nobody b ⟨rb, live⟩), live], eq⟩
  refine ⟨⟨?_, calm.cancelled, calm.aborted, calm.hEventCancel, ?_, ?_, ?_⟩, ?_⟩
  · intro d inside
    rcases List.mem_or_eq_of_mem_set inside with old | rfl
    · exact calm.calls d old
    · rfl
  · intro b rb live
    change Function.update s.heap s.allocated (some r) b = some rb at live
    by_cases here : b = s.allocated
    · subst here
      rw [Function.update_self] at live
      cases live
      have none : (0 : ℕ) ≠ statusPending := by decide
      exact ⟨rfl, none⟩
    · rw [Function.update_of_ne here] at live
      exact calm.requests b rb live
  · intro w b ov' eq
    exact kept b ov' (calm.workers w b ov' eq)
  · intro d inside b ov' eq
    rcases List.mem_or_eq_of_mem_set inside with old | rfl
    · exact kept b ov' (calm.clients d old b ov' eq)
    · cases eq
      exact ⟨r, Function.update_self .., rfl⟩
  · have notHeld : ∀ w, (s.worker w).holds ≠ some s.allocated := by
      intro w holds
      exact nobody _ (inv.holds_live holds) rfl
    have notOwned : ∀ d ∈ s.calls, d.owns ≠ some s.allocated := by
      intro d inside owns
      obtain ⟨t', at_t'⟩ := List.mem_iff_getElem?.mp inside
      exact nobody _ (inv.owns_live at_t' owns) rfl
    have live' : ∀ b, b ≠ s.allocated → ((∃ rb, Function.update s.heap s.allocated (some r) b =
        some rb) ↔ ∃ rb, s.heap b = some rb) := by
      intro b ne
      rw [Function.update_of_ne ne]
    refine ledger.allocate (r := r) frontier rfl ?_ ?_ ?_ ?_ ?_ rfl rfl rfl rfl rfl
    · refine ⟨⟨r, Function.update_self ..⟩, ?_, ?_⟩
      · exact fun w past => notHeld w (Worker.holds_of_stored past)
      · intro d inside past
        rcases List.mem_or_eq_of_mem_set inside with old | rfl
        · exact notOwned d old (Call.owns_of_stored past)
        · cases past
    · refine ⟨⟨r, Function.update_self ..⟩, ?_, ?_⟩
      · exact fun w past => notHeld w (Worker.holds_of_signalled past)
      · intro d inside past
        rcases List.mem_or_eq_of_mem_set inside with old | rfl
        · exact notOwned d old (Call.owns_of_signalled past)
        · cases past
    · intro a ov' known
      refine issued_client rfl ?_ (fun i a ov eq => by cases eq) a ov' known
      exact fun u _ _ mem => .inl ⟨u, mem⟩
    · intro b ne before
      exact before.set_call rfl rfl ((live' b ne).mpr before.1) fun eq => by cases eq
    · intro b ne
      constructor
      · intro before
        exact before.of_set_call at_t rfl rfl ((live' b ne).mp before.1) fun eq => by cases eq
      · intro before
        exact before.set_call rfl rfl ((live' b ne).mpr before.1) fun eq => by cases eq

theorem answer_answered (calm : Calm s) (ledger : Ledger s) {a : Ref} {ov : Addr}
    (at_t : s.calls[t]? = some (.polling a ov)) {r : AsyncIoRequest}
    (live : s.heap a = some r) {dwLastError : ℕ} (dwResult : ℕ)
    (set : dwLastError ≠ statusPending) :
    Answered (((s.store ov dwLastError dwResult).storeResult r.lpdwResult dwResult).goto t
      (.signalling a ov dwLastError)) := by
  have mem := List.mem_of_getElem? at_t
  obtain ⟨r', live', at_ov⟩ := calm.clients _ mem a ov rfl
  rw [live] at live'
  cases live'
  have done : ∀ results, Answered (({ s.store ov dwLastError dwResult with
      results := results } : State).goto t (.signalling a ov dwLastError)) := by
    intro results
    constructor
    · refine calm.client rfl rfl rfl rfl rfl calm.requests (SameTargets.refl _) rfl ?_
      intro b ov' eq
      cases eq
      exact ⟨r, live, at_ov⟩
    · refine ledger.store live at_ov set ?_ ?_ ?_ rfl rfl rfl rfl rfl
      · intro b ov' known
        refine issued_client rfl ?_ (fun i a ov eq => by cases eq) b ov' known
        exact fun u _ _ mem => .inl ⟨u, mem⟩
      · intro b ne before
        exact before.set_call rfl rfl before.1 fun eq => ne (Option.some.inj eq).symm
      · exact Before.client_iff at_t rfl rfl (SameTargets.refl _) rfl
  cases r.lpdwResult with
  | none => exact done s.results
  | some p => exact done _

theorem signalling_answered (inv : Inv s queue place) (calm : Calm s) (ledger : Ledger s)
    {a : Ref} {ov : Addr} {error : ℕ} (at_t : s.calls[t]? = some (.signalling a ov error)) :
    Answered ((s.signal a ov).goto t (.deleting a error)) := by
  have mem := List.mem_of_getElem? at_t
  obtain ⟨r, live, at_ov⟩ := calm.clients _ mem a ov rfl
  have notYet : Unsignalled s a := by
    refine before_of_owns inv at_t rfl ?_ (fun _ _ => Worker.holds_of_signalled) fun _ _ =>
      Call.owns_of_signalled
    intro eq
    cases eq
  constructor
  · refine calm.client rfl rfl rfl rfl rfl calm.requests (SameTargets.refl _) rfl ?_
    intro b ov' eq
    cases eq
  · refine ledger.signal live at_ov notYet (inv.heap.lt_allocated live) ?_ ?_ ?_ rfl rfl rfl rfl rfl
    · intro b ov' known
      refine issued_client rfl ?_ (fun i a ov eq => by cases eq) b ov' known
      exact fun u _ _ mem => .inl ⟨u, mem⟩
    · exact fun b before => before.set_call rfl rfl before.1 fun eq => before.2.2 _ mem eq
    · intro b
      constructor
      · intro before
        have ne : b ≠ a := by
          rintro rfl
          exact before.2.2 _ (List.mem_set (List.getElem?_eq_some_iff.mp at_t).1 _) rfl
        exact ⟨ne, before.of_set_call at_t rfl rfl before.1 fun eq => by cases eq⟩
      · rintro ⟨ne, before⟩
        exact before.set_call rfl rfl before.1 fun eq => ne (Option.some.inj eq).symm

theorem deleting_answered (inv : Inv s queue place) (calm : Calm s) (ledger : Ledger s)
    {a : Ref} {error : ℕ} (at_t : s.calls[t]? = some (.deleting a error)) {reply : Reply}
    (plain : ∀ a ov, reply ≠ .pending a ov) :
    Answered (({ s with
      heap := Function.update s.heap a none, deletions := s.deletions ++ [a] } : State).reply t
        reply) := by
  have mem := List.mem_of_getElem? at_t
  have at_a := inv.owns_place at_t (a := a) rfl
  have still : ∀ b, b ≠ a → ((∃ rb, Function.update s.heap a none b = some rb) ↔
      ∃ rb, s.heap b = some rb) := by
    intro b ne
    rw [Function.update_of_ne ne]
  constructor
  · refine (calm.delete (s.deletions ++ [a]) ?_ ?_).reply reply
    · intro w ov serves
      have at_w := inv.holds_place (Worker.holds_of_serves serves)
      rw [at_a] at at_w
      cases at_w
    · intro d inside ov serves
      obtain ⟨t', at_t'⟩ := List.mem_iff_getElem?.mp inside
      have at_d := inv.owns_place at_t' (Call.owns_of_serves serves)
      rw [at_a] at at_d
      cases at_d
      rw [at_t] at at_t'
      cases at_t'
      cases serves
  · refine ledger.delete (a := a) ?_ ?_ ?_ ?_ ?_ rfl rfl rfl rfl rfl
    · exact fun before => before.2.2 _ mem rfl
    · exact fun before => before.2.2 _ mem rfl
    · intro b ov' known
      refine issued_client rfl ?_ (fun i a ov eq => by cases eq) b ov' known
      intro u b' ov'' inside
      rcases List.mem_append.mp inside with old | new
      · exact .inl ⟨u, old⟩
      · cases List.mem_singleton.mp new
        exact absurd rfl (plain b' ov'')
    · intro b ne before
      exact before.set_call rfl rfl ((still b ne).mpr before.1) fun eq => by cases eq
    · intro b ne
      constructor
      · intro before
        refine before.of_set_call at_t rfl rfl ((still b ne).mp before.1) ?_
        exact fun eq => ne (Option.some.inj eq).symm
      · intro before
        exact before.set_call rfl rfl ((still b ne).mpr before.1) fun eq => by cases eq

theorem adding_answered (inv : Inv s queue place) (calm : Calm s) (ledger : Ledger s) {i : Index} {a : Ref} {ov : Addr}
    (at_t : s.calls[t]? = some (.adding i a ov)) {r : Except Trap State}
    (stepped : stepClient s t (.adding i a ov) .proceed = some r) {s' : State}
    (ok : r = .ok s') : Answered s' := by
  obtain rfl := Option.some.inj stepped
  have mem := List.mem_of_getElem? at_t
  obtain ⟨r, live, last⟩ := inv.fresh _ mem a rfl
  have off : a ∉ queue i := fun inside =>
    inv.lists.not_client inside t (inv.owns_place at_t rfl)
  obtain ⟨s₁, added, done⟩ :=
    addRequest_spec (inv.lists.chain i) (inv.lists.nodup i) (inv.queue_lt i) live last off
  rw [added] at ok
  cases ok
  have data := done.data
  obtain ⟨heap', pending', rfl⟩ :
      ∃ heap' pending', s₁ = { s with heap := heap', pending := pending' } :=
    ⟨_, _, done.same⟩
  constructor
  · refine calm.client rfl rfl rfl rfl rfl (Plain.relink calm.requests data) data.targets rfl ?_
    intro b ov' eq
    cases eq
  · refine ledger.client at_t rfl rfl data.targets rfl rfl rfl rfl ?_ rfl rfl
    rintro b ov' (⟨u, inside⟩ | ⟨j, inside⟩)
    · exact .inl (.inl ⟨u, inside⟩)
    · rcases List.mem_or_eq_of_mem_set inside with old | new
      · exact .inl (.inr ⟨j, old⟩)
      · cases new
        right
        refine ⟨inv.heap.lt_allocated live, ?_, ?_, calm.clients _ mem a ov rfl⟩
        · refine before_of_owns inv at_t rfl ?_ (fun _ _ => Worker.holds_of_stored) fun _ _ =>
            Call.owns_of_stored
          intro eq
          cases eq
        · refine before_of_owns inv at_t rfl ?_ (fun _ _ => Worker.holds_of_signalled) fun _ _ =>
            Call.owns_of_signalled
          intro eq
          cases eq

theorem cancelling_answered (inv : Inv s queue place) (calm : Calm s) (ledger : Ledger s)
    {h : Handle} {i : Index} (at_t : s.calls[t]? = some (.cancelling h i))
    (none : ∀ a r, OnList s i a → s.heap a = some r → r.hHandle ≠ h) {r : Except Trap State}
    (stepped : stepClient s t (.cancelling h i) .proceed = some r) {s' : State}
    (ok : r = .ok s') : Answered s' := by
  obtain rfl := Option.some.inj stepped
  rcases findAndRemoveRequest_spec h (inv.lists.chain i) (inv.lists.nodup i) (inv.queue_lt i) with
    ⟨nothing, -⟩ | ⟨s₁, a, l₁, l₂, found, split, done, r, live, handle⟩
  · rw [nothing] at ok
    cases ok
    have go : ∀ j, Answered (s.goto t (.cancelling h j)) := by
      intro j
      refine ⟨calm.go rfl ?_, ledger.go at_t ?_ rfl rfl⟩
      · intro b ov eq
        cases eq
      · intro k b ov eq
        cases eq
    cases i with
    | read => exact go .write
    | write => exact go .poll
    | poll => exact go .busy
    | busy =>
      refine ⟨calm.reply _, ledger.reply at_t rfl rfl ?_⟩
      intro b ov eq
      cases eq
  · have mem : a ∈ queue i := by
      rw [split]
      simp
    exact absurd handle (none a r ⟨queue i, inv.lists.chain i, mem⟩ live)

theorem stepClient_answered (inv : Inv s queue place) (calm : Calm s) (ledger : Ledger s)
    (at_t : s.calls[t]? = some c) {act : ClientAction}
    (fits : CompletesFits s (.client t act)) {r : Except Trap State}
    (stepped : stepClient s t c act = some r) {s' : State} (ok : r = .ok s') : Answered s' := by
  have mem := List.mem_of_getElem? at_t
  have calls := calm.calls c mem
  unfold stepClient at stepped
  split at stepped
  case h_1 =>
    obtain rfl := Option.some.inj stepped
    cases ok
    exact submit_answered inv calm ledger at_t _ _ _ _ _ _
  case h_2 =>
    obtain rfl := Option.some.inj stepped
    cases ok
    exact submit_answered inv calm ledger at_t _ _ _ _ _ _
  case h_3 =>
    obtain rfl := Option.some.inj stepped
    cases ok
    exact submit_answered inv calm ledger at_t _ _ _ _ _ _
  case h_4 =>
    obtain rfl := Option.some.inj stepped
    cases ok
    refine ⟨calm.go rfl ?_, ledger.go at_t ?_ rfl rfl⟩
    · intro b ov eq
      cases eq
    · intro k b ov eq
      cases eq
  case h_5 i a ov =>
    obtain rfl := Option.some.inj stepped
    cases ok
    obtain ⟨r, live, at_ov⟩ := calm.clients _ mem a ov rfl
    have next : ∀ c', c'.cancels = false → c'.serves = some (a, ov) →
        (∀ i a ov, c' ≠ .waking i a ov) → c'.stored = none → c'.signalled = none →
        Answered (({ s with
          event := Function.update s.event (s.overlapped ov).hEvent false } : State).goto t c') := by
      intro c' cancels serves quiet stored signalled
      constructor
      · refine calm.client rfl rfl rfl rfl rfl calm.requests (SameTargets.refl _) cancels ?_
        intro b ov' eq
        rw [serves] at eq
        cases eq
        exact ⟨r, live, at_ov⟩
      · refine ledger.reset live at_ov ?_ ?_ ?_ ?_ rfl rfl rfl rfl rfl
        · have before : Unsignalled s a := by
            refine before_of_owns inv at_t rfl ?_ (fun _ _ => Worker.holds_of_signalled)
              fun _ _ => Call.owns_of_signalled
            intro eq
            cases eq
          exact before.set_call rfl rfl before.1 (by rw [signalled]; simp)
        · intro b ov' known
          refine issued_client rfl ?_ quiet b ov' known
          exact fun u _ _ mem => .inl ⟨u, mem⟩
        · exact fun b before => before.set_call rfl rfl before.1 (by rw [stored]; simp)
        · intro b
          constructor
          · exact fun before => before.of_set_call at_t rfl rfl before.1 fun eq => by cases eq
          · exact fun before => before.set_call rfl rfl before.1 (by rw [signalled]; simp)
    split
    · refine next _ rfl rfl ?_ rfl rfl
      intro k b ov' eq
      cases eq
    · refine next _ rfl rfl ?_ rfl rfl
      intro k b ov' eq
      cases eq
  case h_6 a ov dwLastError dwResult =>
    obtain rfl := Option.some.inj stepped
    obtain ⟨r, live⟩ := inv.owns_live at_t rfl
    rw [deref_live live] at ok
    by_cases pending : dwLastError = errorIoPending
    · simp only [bind, Except.bind, pure, Except.pure, pending] at ok
      cases ok
      refine ⟨calm.go rfl ?_, ledger.go at_t ?_ rfl rfl⟩
      · intro b ov' eq
        cases eq
        exact calm.clients _ mem a ov rfl
      · intro k b ov' eq
        cases eq
    · simp only [bind, Except.bind, pure, Except.pure, if_pos pending] at ok
      cases ok
      exact answer_answered calm ledger at_t live dwResult fits
  case h_7 a ov error =>
    obtain rfl := Option.some.inj stepped
    cases ok
    exact signalling_answered inv calm ledger at_t
  case h_8 a error =>
    obtain rfl := Option.some.inj stepped
    obtain ⟨r, live⟩ := inv.owns_live at_t rfl
    rw [delete_live live] at ok
    cases ok
    apply deleting_answered inv calm ledger at_t
    intro b ov eq
    cases eq
  case h_9 i a ov => exact adding_answered inv calm ledger at_t stepped ok
  case h_10 i a ov =>
    obtain rfl := Option.some.inj stepped
    cases ok
    constructor
    · refine calm.client rfl rfl rfl rfl rfl calm.requests (SameTargets.refl _) rfl ?_
      intro b ov' eq
      cases eq
    · refine ledger.client at_t rfl rfl (SameTargets.refl _) rfl rfl rfl rfl ?_ rfl rfl
      intro b ov' known
      left
      refine issued_client rfl ?_ (fun i a ov eq => by cases eq) b ov' known
      intro u b' ov'' inside
      rcases List.mem_append.mp inside with old | new
      · exact .inl ⟨u, old⟩
      · cases List.mem_singleton.mp new
        exact .inr ⟨i, mem⟩
  case h_11 h i => exact cancelling_answered inv calm ledger at_t (fits h i at_t) stepped ok
  case h_12 => cases calls
  case h_13 => cases calls
  case h_14 => cases calls
  case h_15 => cases calls
  case h_16 => cases stepped

end Client

section Worker

variable {s : State} {queue : Index → List Ref} {place : Ref → Option Place} {w : Index}
  {p p' : Worker}

theorem work_answered (calm : Calm s) (ledger : Ledger s) (at_w : s.worker w = p)
    (stored : p'.stored = p.stored) (signalled : p'.signalled = p.signalled)
    (serves : ∀ a ov, p'.serves = some (a, ov) → ∃ r, s.heap a = some r ∧ r.lpOverlapped = ov) :
    Answered (s.work w p') :=
  ⟨calm.work serves, ledger.work at_w stored signalled⟩

theorem work_same_answered (calm : Calm s) (ledger : Ledger s) (at_w : s.worker w = p)
    (stored : p'.stored = p.stored) (signalled : p'.signalled = p.signalled)
    (serves : p'.serves = p.serves) : Answered (s.work w p') := by
  apply work_answered calm ledger at_w stored signalled
  intro a ov eq
  rw [serves, ← at_w] at eq
  exact calm.workers w a ov eq

theorem returned_answered (calm : Calm s) (ledger : Ledger s) (at_w : s.worker w = p)
    {a : Ref} {r : AsyncIoRequest} (live : s.heap a = some r) {dwLastError : ℕ}
    (set : dwLastError ≠ statusPending) (stored : p'.stored = p.stored)
    (signalled : p'.signalled = p.signalled) (serves : p'.serves = p.serves) :
    Answered (({ s with
      heap := Function.update s.heap a (some { r with dwLastError := dwLastError }) } : State).work
        w p') := by
  have targets : SameTargets s.heap
      (Function.update s.heap a (some { r with dwLastError := dwLastError })) := by
    intro b
    by_cases here : b = a
    · subst here
      rw [Function.update_self, live]
      rfl
    · rw [Function.update_of_ne here]
  constructor
  · refine calm.worker rfl rfl rfl rfl rfl ?_ targets ?_
    · intro b rb liveB
      change Function.update s.heap a (some { r with dwLastError := dwLastError }) b = some rb
        at liveB
      by_cases here : b = a
      · subst here
        rw [Function.update_self] at liveB
        cases liveB
        exact ⟨(calm.requests b r live).1, set⟩
      · rw [Function.update_of_ne here] at liveB
        exact calm.requests b rb liveB
    · intro b ov eq
      rw [serves, ← at_w] at eq
      exact calm.workers w b ov eq
  · exact ledger.worker at_w rfl rfl targets rfl rfl rfl rfl rfl stored signalled

theorem storing_answered (calm : Calm s) (ledger : Ledger s) {a : Ref} {ov : Addr}
    {dwResult : ℕ} (at_w : s.worker w = .storing a ov dwResult) {r : AsyncIoRequest}
    (live : s.heap a = some r) (results : Addr → ℕ) :
    Answered (({ s.store ov r.dwLastError dwResult with results := results } : State).work w
      (.signalling a ov)) := by
  obtain ⟨r', live', at_ov⟩ := calm.workers w a ov (by rw [at_w]; rfl)
  rw [live] at live'
  cases live'
  constructor
  · refine calm.worker rfl rfl rfl rfl rfl calm.requests (SameTargets.refl _) ?_
    intro b ov' eq
    cases eq
    exact ⟨r, live, at_ov⟩
  · refine ledger.store live at_ov (calm.requests a r live).2 ?_ ?_ ?_ rfl rfl rfl rfl rfl
    · exact fun _ _ known => known
    · intro b ne before
      exact before.set_worker rfl rfl before.1 fun eq => ne (Option.some.inj eq).symm
    · exact Before.worker_iff at_w rfl rfl (SameTargets.refl _) rfl

theorem workSignalling_answered (inv : Inv s queue place) (calm : Calm s) (ledger : Ledger s)
    {a : Ref} {ov : Addr} (at_w : s.worker w = .signalling a ov) :
    Answered ((s.signal a ov).work w (.removing a)) := by
  obtain ⟨r, live, at_ov⟩ := calm.workers w a ov (by rw [at_w]; rfl)
  have notYet : Unsignalled s a := by
    refine before_of_holds inv at_w rfl ?_ (fun _ _ => Worker.holds_of_signalled) fun _ _ =>
      Call.owns_of_signalled
    intro eq
    cases eq
  constructor
  · refine calm.worker rfl rfl rfl rfl rfl calm.requests (SameTargets.refl _) ?_
    intro b ov' eq
    cases eq
  · refine ledger.signal live at_ov notYet (inv.heap.lt_allocated live) ?_ ?_ ?_ rfl rfl rfl rfl rfl
    · exact fun _ _ known => known
    · intro b before
      refine before.set_worker rfl rfl before.1 fun eq => ?_
      have other := before.2.1 w
      rw [at_w] at other
      exact other eq
    · intro b
      constructor
      · intro before
        have ne : b ≠ a := by
          rintro rfl
          have past := before.2.1 w
          change Worker.signalled (Function.update s.worker w (.removing b) w) ≠ _ at past
          rw [Function.update_self] at past
          exact past rfl
        exact ⟨ne, before.of_set_worker at_w rfl rfl before.1 fun eq => by cases eq⟩
      · rintro ⟨ne, before⟩
        exact before.set_worker rfl rfl before.1 fun eq => ne (Option.some.inj eq).symm

theorem workDeleting_answered (inv : Inv s queue place) (calm : Calm s) (ledger : Ledger s)
    {a : Ref} (at_w : s.worker w = .deleting a) :
    Answered (({ s with
      heap := Function.update s.heap a none, deletions := s.deletions ++ [a] } : State).work w
        .looking) := by
  have at_a := inv.holds_place (w := w) (a := a) (by rw [at_w]; rfl)
  have still : ∀ b, b ≠ a → ((∃ rb, Function.update s.heap a none b = some rb) ↔
      ∃ rb, s.heap b = some rb) := by
    intro b ne
    rw [Function.update_of_ne ne]
  constructor
  · have deleted := calm.delete (s.deletions ++ [a]) (a := a) ?_ ?_
    · refine deleted.work ?_
      intro b ov eq
      cases eq
    · intro v ov serves
      have at_v := inv.holds_place (Worker.holds_of_serves serves)
      rw [at_a] at at_v
      cases at_v
      rw [at_w] at serves
      cases serves
    · intro d inside ov serves
      obtain ⟨t', at_t'⟩ := List.mem_iff_getElem?.mp inside
      have at_d := inv.owns_place at_t' (Call.owns_of_serves serves)
      rw [at_a] at at_d
      cases at_d
  · refine ledger.delete (a := a) ?_ ?_ ?_ ?_ ?_ rfl rfl rfl rfl rfl
    · exact fun before => before.2.1 w (by rw [at_w]; rfl)
    · exact fun before => before.2.1 w (by rw [at_w]; rfl)
    · exact fun _ _ known => known
    · intro b ne before
      exact before.set_worker rfl rfl ((still b ne).mpr before.1) fun eq => by cases eq
    · intro b ne
      constructor
      · intro before
        refine before.of_set_worker at_w rfl rfl ((still b ne).mp before.1) ?_
        exact fun eq => ne (Option.some.inj eq).symm
      · intro before
        exact before.set_worker rfl rfl ((still b ne).mpr before.1) fun eq => by cases eq

theorem looking_answered (inv : Inv s queue place) (calm : Calm s) (ledger : Ledger s)
    (at_w : s.worker w = .looking) {r : Except Trap State}
    (stepped : stepWorker s w .looking .proceed = some r) {s' : State} (ok : r = .ok s') :
    Answered s' := by
  unfold stepWorker at stepped
  dsimp only at stepped
  split at stepped
  · obtain rfl := Option.some.inj stepped
    cases ok
    refine work_answered calm ledger at_w rfl rfl ?_
    intro b ov eq
    cases eq
  · rename_i a some
    obtain rfl := Option.some.inj stepped
    have head := (inv.lists.chain w).head_eq
    rw [some] at head
    obtain ⟨r, live⟩ := (inv.lists.chain w).live (List.mem_of_head? head.symm)
    have live' : (s.setPending w r.next).heap a = Option.some r := live
    rw [deref_live live] at ok
    simp only [bind, Except.bind, pure, Except.pure, State.setNext, write_live live'] at ok
    cases ok
    have data : SameData s.heap
        (Function.update s.heap a (Option.some { r with next := s.pending .busy })) :=
      sameData_update live _
    constructor
    · refine calm.worker rfl rfl rfl rfl rfl (Plain.relink calm.requests data) data.targets ?_
      intro b ov eq
      cases eq
    · exact ledger.worker at_w rfl rfl data.targets rfl rfl rfl rfl rfl rfl rfl

theorem removing_answered (inv : Inv s queue place) (calm : Calm s) (ledger : Ledger s)
    {a : Ref} (at_w : s.worker w = .removing a) {r : Except Trap State}
    (stepped : stepWorker s w (.removing a) .proceed = some r) {s' : State} (ok : r = .ok s') :
    Answered s' := by
  obtain rfl := Option.some.inj stepped
  rcases removeRequest_spec a (inv.lists.chain .busy) (inv.lists.nodup .busy)
    (inv.queue_lt .busy) with ⟨removed, -⟩ | ⟨s₁, l₁, l₂, removed, -, done⟩
  · rw [removed] at ok
    cases ok
    refine work_answered calm ledger at_w rfl rfl ?_
    intro b ov eq
    cases eq
  · rw [removed] at ok
    cases ok
    have data := done.data
    obtain ⟨heap', pending', rfl⟩ :
        ∃ heap' pending', s₁ = { s with heap := heap', pending := pending' } :=
      ⟨_, _, done.same⟩
    constructor
    · refine calm.worker rfl rfl rfl rfl rfl (Plain.relink calm.requests data) data.targets ?_
      intro b ov eq
      cases eq
    · exact ledger.worker at_w rfl rfl data.targets rfl rfl rfl rfl rfl rfl rfl

theorem stepWorker_answered (inv : Inv s queue place) (awake : Awake s) (calm : Calm s)
    (ledger : Ledger s) (at_w : s.worker w = p) {act : WorkerAction}
    (fits : CompletesFits s (.worker w act)) {r : Except Trap State}
    (stepped : stepWorker s w p act = some r) {s' : State} (ok : r = .ok s') : Answered s' := by
  unfold stepWorker at stepped
  split at stepped
  case h_1 =>
    split at stepped
    · obtain rfl := Option.some.inj stepped
      cases ok
      have calm' : Calm { s with wakeup := Function.update s.wakeup w false } :=
        ⟨calm.calls, calm.cancelled, calm.aborted, calm.hEventCancel, calm.requests,
          calm.workers, calm.clients⟩
      constructor
      · refine calm'.work ?_
        intro b ov eq
        cases eq
      · exact ledger.worker at_w rfl rfl (SameTargets.refl _) rfl rfl rfl rfl rfl rfl rfl
    · rw [awake.exit] at stepped
      cases stepped
  case h_2 => exact looking_answered inv calm ledger at_w stepped ok
  case h_3 a =>
    obtain rfl := Option.some.inj stepped
    obtain ⟨r, live⟩ := inv.holds_live (w := w) (a := a) (by rw [at_w]; rfl)
    rw [deref_live live] at ok
    by_cases poll : w = .poll
    · simp only [bind, Except.bind, pure, Except.pure, if_pos poll] at ok
      cases ok
      refine work_answered calm ledger at_w rfl rfl ?_
      intro b ov eq
      cases eq
      exact ⟨r, live, rfl⟩
    · simp only [bind, Except.bind, pure, Except.pure, if_neg poll] at ok
      cases ok
      refine work_answered calm ledger at_w rfl rfl ?_
      intro b ov eq
      cases eq
      exact ⟨r, live, rfl⟩
  case h_4 a ov reads =>
    obtain rfl := Option.some.inj stepped
    obtain ⟨r, live⟩ := inv.holds_live (w := w) (a := a) (by rw [at_w]; rfl)
    rw [deref_live live] at ok
    cases ok
    exact ⟨calm, ledger⟩
  case h_5 a ov reads dwLastError dwResult dwTimeOut =>
    obtain rfl := Option.some.inj stepped
    obtain ⟨r, live⟩ := inv.holds_live (w := w) (a := a) (by rw [at_w]; rfl)
    rw [write_live live] at ok
    cases ok
    exact returned_answered calm ledger at_w live fits.1 rfl rfl rfl
  case h_6 a ov =>
    obtain rfl := Option.some.inj stepped
    obtain ⟨r, live⟩ := inv.holds_live (w := w) (a := a) (by rw [at_w]; rfl)
    rw [deref_live live] at ok
    cases ok
    exact ⟨calm, ledger⟩
  case h_7 a ov dwLastError dwResult dwTimeOut =>
    obtain rfl := Option.some.inj stepped
    obtain ⟨r, live⟩ := inv.holds_live (w := w) (a := a) (by rw [at_w]; rfl)
    rw [write_live live] at ok
    by_cases done : dwLastError ≠ errorIoPending ∨ dwTimeOut = 0
    · simp only [bind, Except.bind, pure, Except.pure, if_pos done] at ok
      cases ok
      exact returned_answered calm ledger at_w live fits.1 rfl rfl rfl
    · simp only [bind, Except.bind, pure, Except.pure, if_neg done] at ok
      cases ok
      exact returned_answered calm ledger at_w live fits.1 rfl rfl rfl
  case h_8 a ov n =>
    rw [calm.hEventCancel, awake.exit] at stepped
    cases stepped
  case h_9 a ov n =>
    split at stepped
    · cases stepped
    · obtain rfl := Option.some.inj stepped
      cases ok
      exact work_same_answered calm ledger at_w rfl rfl rfl
  case h_10 a ov dwResult =>
    obtain rfl := Option.some.inj stepped
    obtain ⟨r, live⟩ := inv.holds_live (w := w) (a := a) (by rw [at_w]; rfl)
    have flag := (calm.requests a r live).1
    rw [deref_live live] at ok
    simp only [bind, Except.bind, pure, Except.pure, flag] at ok
    cases ok
    exact work_same_answered calm ledger at_w rfl rfl rfl
  case h_11 a ov dwResult =>
    obtain rfl := Option.some.inj stepped
    obtain ⟨r, live⟩ := inv.holds_live (w := w) (a := a) (by rw [at_w]; rfl)
    rw [deref_live live] at ok
    by_cases poll : w = .poll
    · simp only [bind, Except.bind, pure, Except.pure, if_pos poll] at ok
      cases ok
      cases r.lpdwResult with
      | none => exact storing_answered calm ledger at_w live s.results
      | some q => exact storing_answered calm ledger at_w live _
    · simp only [bind, Except.bind, pure, Except.pure, if_neg poll] at ok
      cases ok
      exact storing_answered calm ledger at_w live s.results
  case h_12 a ov =>
    obtain rfl := Option.some.inj stepped
    cases ok
    exact workSignalling_answered inv calm ledger at_w
  case h_13 a => exact removing_answered inv calm ledger at_w stepped ok
  case h_14 a =>
    obtain rfl := Option.some.inj stepped
    obtain ⟨r, live⟩ := inv.holds_live (w := w) (a := a) (by rw [at_w]; rfl)
    rw [delete_live live] at ok
    cases ok
    exact workDeleting_answered inv calm ledger at_w
  case h_15 => cases stepped

end Worker

theorem step_answered {s s' : State} {op : Op} (good : Steady s ∧ Answered s)
    (fits : CompletesFits s op) (stepped : step s op = some s') : Steady s' ∧ Answered s' := by
  obtain ⟨steady, calm, ledger⟩ := good
  refine ⟨step_steady steady (fits.step calm) stepped, ?_⟩
  obtain ⟨⟨queue, place, inv⟩, awake⟩ := steady
  unfold step at stepped
  rw [inv.safe] at stepped
  simp only [Bool.false_eq_true, if_false] at stepped
  cases op with
  | client t act =>
    obtain ⟨c, at_t, stepped⟩ := Option.bind_eq_some_iff.mp stepped
    obtain ⟨r, result, absorbed⟩ := Option.bind_eq_some_iff.mp stepped
    obtain ⟨s₁, rfl, -⟩ := stepClient_steady inv awake at_t result
    obtain rfl := Option.some.inj absorbed
    exact stepClient_answered inv calm ledger at_t fits result rfl
  | worker w act =>
    obtain ⟨r, result, absorbed⟩ := Option.bind_eq_some_iff.mp stepped
    obtain ⟨s₁, rfl, -⟩ := stepWorker_steady inv awake rfl (fits.step calm) result
    obtain rfl := Option.some.inj absorbed
    exact stepWorker_answered inv awake calm ledger rfl fits result rfl

/-- Each list is served in the order it was given; only requests that `CancelIo` took are
aborted; and when no thread can go on, each request that is under way for its caller has its
`Internal` set, its event set for it once and the event still set, and tells that it was
aborted if it was cancelled. -/
structure State.Completed (s : State) : Prop where
  order : ∀ i, i ≠ .busy → (s.served i).Sublist (s.added i)
  aborted : ∀ a ∈ s.aborted, a ∈ s.cancelled
  ends : s.Quiescent → ∀ t a ov, (t, Reply.pending a ov) ∈ s.replies →
    (s.overlapped ov).internal ≠ statusPending ∧ s.signals.count a = 1 ∧
      s.event (s.overlapped ov).hEvent = true ∧
      (a ∈ s.cancelled → (s.overlapped ov).internal = errorOperationAborted)

theorem Answered.completed {s : State} (steady : Steady s) (answered : Answered s) :
    s.Completed := by
  obtain ⟨⟨queue, place, inv⟩, awake⟩ := steady
  obtain ⟨calm, ledger⟩ := answered
  constructor
  case order =>
    intro i notBusy
    exact (List.sublist_append_left _ _).trans (inv.logs.order i notBusy)
  case aborted =>
    intro a mem
    rw [calm.aborted] at mem
    cases mem
  case ends =>
    intro quiescent t a ov mem
    have issued : Issued s a ov := .inl ⟨t, mem⟩
    have dead := quiescent.dead inv awake
    have nobody : ∀ b r, s.heap b ≠ some r := by
      intro b r live
      rw [dead b] at live
      cases live
    refine ⟨?_, ?_, ?_, ?_⟩
    · intro pending
      obtain ⟨b, r, -, live, -⟩ := ledger.internal a ov issued pending
      exact nobody b r live
    · rcases ledger.all a (ledger.issued a ov issued) with signalled | ⟨⟨r, live⟩, -⟩
      · exact List.count_eq_one_of_mem ledger.once signalled
      · exact absurd live (nobody a r)
    · by_contra off
      obtain ⟨b, r, -, live, -⟩ := ledger.event a ov issued (Bool.eq_false_iff.mpr off)
      exact nobody b r live
    · intro mem
      rw [calm.cancelled] at mem
      cases mem

/-- Any device, any number of clients, any order of steps: requests complete once. -/
theorem run_completed (device : Device) (threads : ℕ) (overlapped : Addr → OverlappedIo)
    (ops : List Op) (s : State)
    (fits : StepsFit CompletesFits (init device threads overlapped) ops)
    (ran : run ops (init device threads overlapped) = some s) : s.Completed := by
  have start : Steady (init device threads overlapped) ∧
      Answered (init device threads overlapped) :=
    ⟨steady_init device threads overlapped, calm_init device threads overlapped,
      ledger_init device threads overlapped⟩
  have good : Steady s ∧ Answered s := run_keeps (fun _ _ _ => step_answered) start fits ran
  exact good.2.completed good.1

/-- A read from the call to the worker's next wait. -/
def wholeRead : List Op :=
  readToDeleting ++ [.worker .read .proceed, .worker .read .proceed, .worker .read .proceed]

theorem run_completed_read :
    ∃ s, run wholeRead (init reader 2 someOverlapped) = some s ∧
      (s.overlapped 0).internalHigh = 4 ∧ s.signals = [0] ∧ s.Completed := by
  refine ⟨_, rfl, rfl, rfl, run_completed reader 2 someOverlapped wholeRead _ ?_ rfl⟩
  refine ⟨trivial, ?_⟩; rintro _ ⟨⟩
  refine ⟨fun _ _ at_t => (by cases at_t), ?_⟩; rintro _ ⟨⟩
  refine ⟨fun _ _ at_t => (by cases at_t), ?_⟩; rintro _ ⟨⟩
  refine ⟨fun _ _ at_t => (by cases at_t), ?_⟩; rintro _ ⟨⟩
  refine ⟨trivial, ?_⟩; rintro _ ⟨⟩
  refine ⟨trivial, ?_⟩; rintro _ ⟨⟩
  refine ⟨trivial, ?_⟩; rintro _ ⟨⟩
  refine ⟨⟨by decide, fun _ _ at_w => (by cases at_w)⟩, ?_⟩; rintro _ ⟨⟩
  refine ⟨trivial, ?_⟩; rintro _ ⟨⟩
  refine ⟨trivial, ?_⟩; rintro _ ⟨⟩
  refine ⟨trivial, ?_⟩; rintro _ ⟨⟩
  refine ⟨trivial, ?_⟩; rintro _ ⟨⟩
  refine ⟨trivial, ?_⟩; rintro _ ⟨⟩
  exact ⟨trivial, fun _ _ => trivial⟩

/-- `CancelIo` takes a request off the list before the worker looks: nobody sets its event. -/
theorem cancelledRead_not_completed : ¬ ∀ (device : Device) (threads : ℕ)
    (overlapped : Addr → OverlappedIo) (ops : List Op) (s : State),
    run ops (init device threads overlapped) = some s → s.Completed := by
  intro all
  have completed := all reader 2 someOverlapped
    [.client 0 (.readFile 1 (some 0) true), .client 0 .proceed, .client 0 .proceed,
      .client 0 .proceed, .client 1 (.cancelIo 1), .client 1 .proceed, .client 1 .proceed,
      .client 1 .proceed, .client 1 .proceed, .client 1 .proceed, .client 1 .proceed,
      .client 1 .proceed, .client 1 .proceed, .client 1 .proceed, .worker .read .proceed,
      .worker .read .proceed] _ rfl
  have answer := completed.ends ?_ 0 0 0 (by decide)
  · have once := answer.2.1
    cases once
  · refine ⟨by decide, ?_⟩
    intro w act
    cases w <;> cases act <;> rfl

end Odin32.Overlapped
