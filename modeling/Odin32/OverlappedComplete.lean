import Odin32.OverlappedRun

/-! # Every request completes once

A ledger over the requests: which of them have their `Internal` set and which their event.
As long as `CancelIo` finds no request of its handle on a list, each request that was taken
for a later answer ends with an `Internal` other than `STATUS_PENDING` and its event set for
it once. -/

set_option autoImplicit false

namespace Odin32.Overlapped

open LinkedList

/-- The call is about to do something to a request that `CancelIo` took off a list. -/
def Call.cancels : Call → Bool
  | .marking _ _ _ => true
  | .aborting _ _ _ => true
  | .settingCancel _ _ _ => true
  | .freeing _ _ _ => true
  | _ => false

/-- The request whose `Internal` has been set. -/
def Worker.stored : Worker → Option Ref
  | .signalling a _ => some a
  | .removing a => some a
  | .deleting a => some a
  | _ => none

def Call.stored : Call → Option Ref
  | .signalling a _ _ => some a
  | .deleting a _ => some a
  | _ => none

/-- The request whose event has been set. -/
def Worker.signalled : Worker → Option Ref
  | .removing a => some a
  | .deleting a => some a
  | _ => none

def Call.signalled : Call → Option Ref
  | .deleting a _ => some a
  | _ => none

/-- The request in hand and where its `OVERLAPPED` is taken to be. -/
def Worker.serves : Worker → Option (Ref × Addr)
  | .handling a ov _ => some (a, ov)
  | .polling a ov => some (a, ov)
  | .pollWaiting a ov _ => some (a, ov)
  | .returned a ov _ => some (a, ov)
  | .storing a ov _ => some (a, ov)
  | .signalling a ov => some (a, ov)
  | _ => none

def Call.serves : Call → Option (Ref × Addr)
  | .resetting _ a ov => some (a, ov)
  | .polling a ov => some (a, ov)
  | .signalling a ov _ => some (a, ov)
  | .adding _ a ov => some (a, ov)
  | _ => none

/-- The request is there, and no thread has it past a point. -/
def Before (f : Worker → Option Ref) (g : Call → Option Ref) (s : State) (b : Ref) : Prop :=
  (∃ r, s.heap b = some r) ∧ (∀ w, f (s.worker w) ≠ some b) ∧ ∀ c ∈ s.calls, g c ≠ some b

def Unstored : State → Ref → Prop := Before Worker.stored Call.stored

def Unsignalled : State → Ref → Prop := Before Worker.signalled Call.signalled

/-- The call was told that the request is under way, or is about to be. -/
def Issued (s : State) (a : Ref) (ov : Addr) : Prop :=
  (∃ t, (t, Reply.pending a ov) ∈ s.replies) ∨ ∃ i, Call.waking i a ov ∈ s.calls

/-- The request is there and not answered. -/
def Open (s : State) (a : Ref) (ov : Addr) : Prop :=
  a < s.allocated ∧ Unstored s a ∧ Unsignalled s a ∧ ∃ r, s.heap a = some r ∧ r.lpOverlapped = ov

structure Ledger (s : State) : Prop where
  issued : ∀ a ov, Issued s a ov → a < s.allocated
  internal : ∀ a ov, Issued s a ov → (s.overlapped ov).internal = statusPending →
    ∃ b r, Unstored s b ∧ s.heap b = some r ∧ r.lpOverlapped = ov
  event : ∀ a ov, Issued s a ov → s.event (s.overlapped ov).hEvent = false →
    ∃ b r, Unsignalled s b ∧ s.heap b = some r ∧
      (s.overlapped r.lpOverlapped).hEvent = (s.overlapped ov).hEvent
  once : s.signals.Nodup
  bound : ∀ a ∈ s.signals, a < s.allocated
  done : ∀ a ∈ s.signals, ¬ Unsignalled s a
  all : ∀ a < s.allocated, a ∈ s.signals ∨ Unsignalled s a

/-- Nothing was cancelled, and the threads know their requests. -/
structure Calm (s : State) : Prop where
  calls : ∀ c ∈ s.calls, c.cancels = false
  cancelled : s.cancelled = []
  aborted : s.aborted = []
  hEventCancel : s.hEventCancel = false
  requests : ∀ a r, s.heap a = some r → r.fCancelled = false ∧ r.dwLastError ≠ statusPending
  workers : ∀ w a ov, (s.worker w).serves = some (a, ov) →
    ∃ r, s.heap a = some r ∧ r.lpOverlapped = ov
  clients : ∀ c ∈ s.calls, ∀ a ov, c.serves = some (a, ov) →
    ∃ r, s.heap a = some r ∧ r.lpOverlapped = ov

theorem ledger_init (device : Device) (threads : ℕ) (overlapped : Addr → OverlappedIo) :
    Ledger (init device threads overlapped) := by
  have none : ∀ a ov, ¬ Issued (init device threads overlapped) a ov := by
    rintro a ov (⟨t, mem⟩ | ⟨i, mem⟩)
    · cases mem
    · cases List.eq_of_mem_replicate mem
  exact ⟨fun a ov issued => absurd issued (none a ov), fun a ov issued => absurd issued (none a ov),
    fun a ov issued => absurd issued (none a ov), List.nodup_nil,
    fun a mem => absurd mem List.not_mem_nil, fun a mem => absurd mem List.not_mem_nil,
    fun a lt => absurd lt (Nat.not_lt_zero a)⟩

theorem calm_init (device : Device) (threads : ℕ) (overlapped : Addr → OverlappedIo) :
    Calm (init device threads overlapped) := by
  have idle : ∀ c ∈ (init device threads overlapped).calls, c = .idle :=
    fun c mem => List.eq_of_mem_replicate mem
  refine ⟨?_, rfl, rfl, rfl, ?_, ?_, ?_⟩
  · intro c mem
    rw [idle c mem]
    rfl
  · intro a r live
    cases live
  · intro w a ov serves
    rcases device.workers_waiting w with waiting | absent
    · change (device.workers w).serves = some (a, ov) at serves
      rw [waiting] at serves
      cases serves
    · change (device.workers w).serves = some (a, ov) at serves
      rw [absent] at serves
      cases serves
  · intro c mem a ov serves
    rw [idle c mem] at serves
    cases serves

/-! ## How far a request is -/

section Stages

variable {f : Worker → Option Ref} {g : Call → Option Ref} {s s' : State} {t : ℕ} {c c' : Call}
  {w : Index} {p p' : Worker} {a b : Ref}

theorem Before.set_call (before : Before f g s b) (worker : s'.worker = s.worker)
    (calls : s'.calls = s.calls.set t c') (live : ∃ r, s'.heap b = some r)
    (new : g c' ≠ some b) : Before f g s' b := by
  refine ⟨live, ?_, ?_⟩
  · rw [worker]
    exact before.2.1
  · intro d mem
    rw [calls] at mem
    rcases List.mem_or_eq_of_mem_set mem with old | rfl
    · exact before.2.2 d old
    · exact new

theorem Before.of_set_call (before : Before f g s' b) (at_t : s.calls[t]? = some c)
    (worker : s'.worker = s.worker) (calls : s'.calls = s.calls.set t c')
    (live : ∃ r, s.heap b = some r) (old : g c ≠ some b) : Before f g s b := by
  refine ⟨live, ?_, ?_⟩
  · rw [← worker]
    exact before.2.1
  · intro d mem
    by_cases here : d = c
    · rw [here]
      exact old
    · apply before.2.2 d
      rw [calls]
      exact mem_set_of_ne at_t mem here

theorem Before.set_worker (before : Before f g s b) (calls : s'.calls = s.calls)
    (worker : s'.worker = Function.update s.worker w p') (live : ∃ r, s'.heap b = some r)
    (new : f p' ≠ some b) : Before f g s' b := by
  refine ⟨live, ?_, ?_⟩
  · intro v
    rw [worker]
    by_cases same : v = w
    · subst same
      rw [Function.update_self]
      exact new
    · rw [Function.update_of_ne same]
      exact before.2.1 v
  · rw [calls]
    exact before.2.2

theorem Before.of_set_worker (before : Before f g s' b) (at_w : s.worker w = p)
    (calls : s'.calls = s.calls) (worker : s'.worker = Function.update s.worker w p')
    (live : ∃ r, s.heap b = some r) (old : f p ≠ some b) : Before f g s b := by
  refine ⟨live, ?_, ?_⟩
  · intro v
    by_cases same : v = w
    · subst same
      rw [at_w]
      exact old
    · have other := before.2.1 v
      rw [worker, Function.update_of_ne same] at other
      exact other
  · rw [← calls]
    exact before.2.2

variable {queue : Index → List Ref} {place : Ref → Option Place}

theorem before_of_owns (inv : Inv s queue place) (at_t : s.calls[t]? = some c)
    (owns : c.owns = some a) (notYet : g c ≠ some a)
    (holds : ∀ p b, f p = some b → p.holds = some b)
    (owned : ∀ d b, g d = some b → d.owns = some b) : Before f g s a := by
  have at_a := inv.owns_place at_t owns
  refine ⟨inv.owns_live at_t owns, ?_, ?_⟩
  · intro v past
    have at_v := inv.holds_place (holds _ _ past)
    rw [at_a] at at_v
    cases at_v
  · intro d mem past
    obtain ⟨t', at_t'⟩ := List.mem_iff_getElem?.mp mem
    have at_d := inv.owns_place at_t' (owned _ _ past)
    rw [at_a] at at_d
    cases at_d
    rw [at_t] at at_t'
    cases at_t'
    exact notYet past

theorem before_of_holds (inv : Inv s queue place) (at_w : s.worker w = p)
    (has : p.holds = some a) (notYet : f p ≠ some a)
    (holds : ∀ p b, f p = some b → p.holds = some b)
    (owned : ∀ d b, g d = some b → d.owns = some b) : Before f g s a := by
  have at_a := inv.holds_place (w := w) (a := a) (by rw [at_w]; exact has)
  refine ⟨inv.heap.exists_live at_a, ?_, ?_⟩
  · intro v past
    have at_v := inv.holds_place (holds _ _ past)
    rw [at_a] at at_v
    cases at_v
    rw [at_w] at past
    exact notYet past
  · intro d mem past
    obtain ⟨t', at_t'⟩ := List.mem_iff_getElem?.mp mem
    have at_d := inv.owns_place at_t' (owned _ _ past)
    rw [at_a] at at_d
    cases at_d

theorem Worker.holds_of_stored {p : Worker} {b : Ref} (past : p.stored = some b) :
    p.holds = some b := by
  cases p <;> first | exact past | cases past

theorem Worker.holds_of_signalled {p : Worker} {b : Ref} (past : p.signalled = some b) :
    p.holds = some b := by
  cases p <;> first | exact past | cases past

theorem Call.owns_of_stored {d : Call} {b : Ref} (past : d.stored = some b) :
    d.owns = some b := by
  cases d <;> first | exact past | cases past

theorem Call.owns_of_signalled {d : Call} {b : Ref} (past : d.signalled = some b) :
    d.owns = some b := by
  cases d <;> first | exact past | cases past

end Stages

/-! ## What a step does to the ledger -/

section Ledger

variable {s s' : State} {a : Ref} {ov : Addr}

theorem Ledger.keep (ledger : Ledger s)
    (issued : ∀ a ov, Issued s' a ov → Issued s a ov ∨ Open s a ov)
    (unstored : ∀ b, Unstored s b → Unstored s' b)
    (unsignalled : ∀ b, Unsignalled s' b ↔ Unsignalled s b)
    (data : ∀ b r, s.heap b = some r → ∃ r', s'.heap b = some r' ∧
      r'.lpOverlapped = r.lpOverlapped)
    (overlapped : s'.overlapped = s.overlapped) (event : s'.event = s.event)
    (signals : s'.signals = s.signals) (allocated : s'.allocated = s.allocated) :
    Ledger s' := by
  constructor
  case issued =>
    intro a ov known
    rw [allocated]
    rcases issued a ov known with old | now
    · exact ledger.issued a ov old
    · exact now.1
  case internal =>
    intro a ov known pending
    rw [overlapped] at pending
    have found : ∃ b r, Unstored s b ∧ s.heap b = some r ∧ r.lpOverlapped = ov := by
      rcases issued a ov known with old | ⟨-, before, -, r, live, eq⟩
      · exact ledger.internal a ov old pending
      · exact ⟨a, r, before, live, eq⟩
    obtain ⟨b, r, before, live, eq⟩ := found
    obtain ⟨r', live', same⟩ := data b r live
    exact ⟨b, r', unstored b before, live', same.trans eq⟩
  case event =>
    intro a ov known off
    rw [overlapped, event] at off
    have found : ∃ b r, Unsignalled s b ∧ s.heap b = some r ∧
        (s.overlapped r.lpOverlapped).hEvent = (s.overlapped ov).hEvent := by
      rcases issued a ov known with old | ⟨-, -, before, r, live, eq⟩
      · exact ledger.event a ov old off
      · exact ⟨a, r, before, live, by rw [eq]⟩
    obtain ⟨b, r, before, live, eq⟩ := found
    obtain ⟨r', live', same⟩ := data b r live
    refine ⟨b, r', (unsignalled b).mpr before, live', ?_⟩
    rw [overlapped, same]
    exact eq
  case once => rw [signals]; exact ledger.once
  case bound =>
    rw [signals, allocated]
    exact ledger.bound
  case done =>
    intro a mem before
    rw [signals] at mem
    exact ledger.done a mem ((unsignalled a).mp before)
  case all =>
    intro a lt
    rw [allocated] at lt
    rw [signals]
    rcases ledger.all a lt with mem | before
    · exact .inl mem
    · exact .inr ((unsignalled a).mpr before)

theorem Ledger.store (ledger : Ledger s) {r : AsyncIoRequest} (live : s.heap a = some r)
    (at_ov : r.lpOverlapped = ov) {internal internalHigh : ℕ} (set : internal ≠ statusPending)
    (issued : ∀ a ov, Issued s' a ov → Issued s a ov)
    (unstored : ∀ b, b ≠ a → Unstored s b → Unstored s' b)
    (unsignalled : ∀ b, Unsignalled s' b ↔ Unsignalled s b) (heap : s'.heap = s.heap)
    (overlapped : s'.overlapped = (s.store ov internal internalHigh).overlapped)
    (event : s'.event = s.event) (signals : s'.signals = s.signals)
    (allocated : s'.allocated = s.allocated) : Ledger s' := by
  have hEvent : ∀ ov', (s'.overlapped ov').hEvent = (s.overlapped ov').hEvent := by
    intro ov'
    rw [overlapped]
    by_cases same : ov' = ov
    · subst same
      simp [State.store]
    · simp [State.store, Function.update_of_ne same]
  constructor
  case issued =>
    intro a ov known
    rw [allocated]
    exact ledger.issued a ov (issued a ov known)
  case internal =>
    intro a' ov' known pending
    have ne : ov' ≠ ov := by
      rintro rfl
      rw [overlapped] at pending
      simp only [State.store, Function.update_self] at pending
      exact set pending
    have pending' : (s.overlapped ov').internal = statusPending := by
      rw [overlapped] at pending
      simpa [State.store, Function.update_of_ne ne] using pending
    obtain ⟨b, rb, before, liveB, eq⟩ := ledger.internal a' ov' (issued a' ov' known) pending'
    have apart : b ≠ a := by
      rintro rfl
      rw [live] at liveB
      cases liveB
      exact ne (eq.symm.trans at_ov)
    exact ⟨b, rb, unstored b apart before, by rw [heap, liveB], eq⟩
  case event =>
    intro a' ov' known off
    rw [hEvent, event] at off
    obtain ⟨b, rb, before, liveB, eq⟩ := ledger.event a' ov' (issued a' ov' known) off
    refine ⟨b, rb, (unsignalled b).mpr before, by rw [heap, liveB], ?_⟩
    rw [hEvent, hEvent, eq]
  case once => rw [signals]; exact ledger.once
  case bound =>
    rw [signals, allocated]
    exact ledger.bound
  case done =>
    intro b mem before
    rw [signals] at mem
    exact ledger.done b mem ((unsignalled b).mp before)
  case all =>
    intro b lt
    rw [allocated] at lt
    rw [signals]
    rcases ledger.all b lt with mem | before
    · exact .inl mem
    · exact .inr ((unsignalled b).mpr before)

theorem Ledger.signal (ledger : Ledger s) {r : AsyncIoRequest} (live : s.heap a = some r)
    (at_ov : r.lpOverlapped = ov) (notYet : Unsignalled s a) (lt : a < s.allocated)
    (issued : ∀ a ov, Issued s' a ov → Issued s a ov)
    (unstored : ∀ b, Unstored s b → Unstored s' b)
    (unsignalled : ∀ b, Unsignalled s' b ↔ b ≠ a ∧ Unsignalled s b) (heap : s'.heap = s.heap)
    (overlapped : s'.overlapped = s.overlapped)
    (event : s'.event = (s.signal a ov).event) (signals : s'.signals = s.signals ++ [a])
    (allocated : s'.allocated = s.allocated) : Ledger s' := by
  have off_a : a ∉ s.signals := fun mem => ledger.done a mem notYet
  constructor
  case issued =>
    intro a ov known
    rw [allocated]
    exact ledger.issued a ov (issued a ov known)
  case internal =>
    intro a' ov' known pending
    rw [overlapped] at pending
    obtain ⟨b, rb, before, liveB, eq⟩ := ledger.internal a' ov' (issued a' ov' known) pending
    exact ⟨b, rb, unstored b before, by rw [heap, liveB], eq⟩
  case event =>
    intro a' ov' known off
    rw [overlapped, event] at off
    have ne : (s.overlapped ov').hEvent ≠ (s.overlapped ov).hEvent := by
      intro same
      rw [same] at off
      simp [State.signal] at off
    have off' : s.event (s.overlapped ov').hEvent = false := by
      simpa [State.signal, Function.update_of_ne ne] using off
    obtain ⟨b, rb, before, liveB, eq⟩ := ledger.event a' ov' (issued a' ov' known) off'
    have apart : b ≠ a := by
      rintro rfl
      rw [live] at liveB
      cases liveB
      rw [at_ov] at eq
      exact ne eq.symm
    refine ⟨b, rb, (unsignalled b).mpr ⟨apart, before⟩, by rw [heap, liveB], ?_⟩
    rw [overlapped, eq]
  case once =>
    rw [signals]
    have perm : (s.signals ++ [a]).Perm (a :: s.signals) := List.perm_append_singleton a _
    exact perm.nodup_iff.mpr (List.nodup_cons.mpr ⟨off_a, ledger.once⟩)
  case bound =>
    intro b mem
    rw [signals] at mem
    rw [allocated]
    rcases List.mem_append.mp mem with old | new
    · exact ledger.bound b old
    · rw [List.mem_singleton.mp new]
      exact lt
  case done =>
    intro b mem before
    obtain ⟨ne, before⟩ := (unsignalled b).mp before
    rw [signals] at mem
    rcases List.mem_append.mp mem with old | new
    · exact ledger.done b old before
    · exact ne (List.mem_singleton.mp new)
  case all =>
    intro b ltB
    rw [allocated] at ltB
    rw [signals]
    by_cases here : b = a
    · exact .inl (by simp [here])
    · rcases ledger.all b ltB with mem | before
      · exact .inl (List.mem_append_left _ mem)
      · exact .inr ((unsignalled b).mpr ⟨here, before⟩)

theorem Ledger.delete (ledger : Ledger s) (past : ¬ Unstored s a) (past' : ¬ Unsignalled s a)
    (issued : ∀ a ov, Issued s' a ov → Issued s a ov)
    (unstored : ∀ b, b ≠ a → Unstored s b → Unstored s' b)
    (unsignalled : ∀ b, b ≠ a → (Unsignalled s' b ↔ Unsignalled s b))
    (heap : s'.heap = Function.update s.heap a none) (overlapped : s'.overlapped = s.overlapped)
    (event : s'.event = s.event) (signals : s'.signals = s.signals)
    (allocated : s'.allocated = s.allocated) : Ledger s' := by
  have gone : ¬ Unsignalled s' a := by
    rintro ⟨⟨r, live⟩, -⟩
    rw [heap, Function.update_self] at live
    cases live
  constructor
  case issued =>
    intro a ov known
    rw [allocated]
    exact ledger.issued a ov (issued a ov known)
  case internal =>
    intro a' ov' known pending
    rw [overlapped] at pending
    obtain ⟨b, rb, before, liveB, eq⟩ := ledger.internal a' ov' (issued a' ov' known) pending
    have apart : b ≠ a := by
      rintro rfl
      exact past before
    refine ⟨b, rb, unstored b apart before, ?_, eq⟩
    rw [heap, Function.update_of_ne apart, liveB]
  case event =>
    intro a' ov' known off
    rw [overlapped, event] at off
    obtain ⟨b, rb, before, liveB, eq⟩ := ledger.event a' ov' (issued a' ov' known) off
    have apart : b ≠ a := by
      rintro rfl
      exact past' before
    refine ⟨b, rb, (unsignalled b apart).mpr before, ?_, ?_⟩
    · rw [heap, Function.update_of_ne apart, liveB]
    · rw [overlapped, eq]
  case once => rw [signals]; exact ledger.once
  case bound =>
    rw [signals, allocated]
    exact ledger.bound
  case done =>
    intro b mem before
    rw [signals] at mem
    have apart : b ≠ a := by
      rintro rfl
      exact gone before
    exact ledger.done b mem ((unsignalled b apart).mp before)
  case all =>
    intro b lt
    rw [allocated] at lt
    rw [signals]
    rcases ledger.all b lt with mem | before
    · exact .inl mem
    · have apart : b ≠ a := by
        rintro rfl
        exact past' before
      exact .inr ((unsignalled b apart).mpr before)

theorem Ledger.reset (ledger : Ledger s) {r : AsyncIoRequest} (live : s.heap a = some r)
    (at_ov : r.lpOverlapped = ov) (notYet : Unsignalled s' a)
    (issued : ∀ a ov, Issued s' a ov → Issued s a ov)
    (unstored : ∀ b, Unstored s b → Unstored s' b)
    (unsignalled : ∀ b, Unsignalled s' b ↔ Unsignalled s b) (heap : s'.heap = s.heap)
    (overlapped : s'.overlapped = s.overlapped)
    (event : s'.event = Function.update s.event (s.overlapped ov).hEvent false)
    (signals : s'.signals = s.signals) (allocated : s'.allocated = s.allocated) : Ledger s' := by
  have kept : Ledger { s' with event := s.event } := by
    refine ledger.keep (fun a ov known => .inl (issued a ov known)) unstored unsignalled ?_
      overlapped rfl signals allocated
    intro b rb liveB
    exact ⟨rb, by rw [← liveB]; exact congrFun heap b, rfl⟩
  refine ⟨kept.issued, kept.internal, ?_, kept.once, kept.bound, kept.done, kept.all⟩
  intro a' ov' known off
  by_cases same : (s.overlapped ov').hEvent = (s.overlapped ov).hEvent
  · refine ⟨a, r, notYet, by rw [heap, live], ?_⟩
    rw [overlapped, at_ov, same]
  · apply kept.event a' ov' known
    rw [event, overlapped, Function.update_of_ne same] at off
    change s.event (s'.overlapped ov').hEvent = false
    rw [overlapped]
    exact off

theorem Ledger.allocate (ledger : Ledger s) {r : AsyncIoRequest} (frontier : s.heap s.allocated = none)
    (at_ov : r.lpOverlapped = ov) (notYet : Unstored s' s.allocated)
    (notYet' : Unsignalled s' s.allocated)
    (issued : ∀ a ov, Issued s' a ov → Issued s a ov)
    (unstored : ∀ b, b ≠ s.allocated → Unstored s b → Unstored s' b)
    (unsignalled : ∀ b, b ≠ s.allocated → (Unsignalled s' b ↔ Unsignalled s b))
    (heap : s'.heap = Function.update s.heap s.allocated (some r))
    (overlapped : s'.overlapped = (s.store ov statusPending 0).overlapped)
    (event : s'.event = s.event) (signals : s'.signals = s.signals)
    (allocated : s'.allocated = s.allocated + 1) : Ledger s' := by
  have hEvent : ∀ ov', (s'.overlapped ov').hEvent = (s.overlapped ov').hEvent := by
    intro ov'
    rw [overlapped]
    by_cases same : ov' = ov
    · subst same
      simp [State.store]
    · simp [State.store, Function.update_of_ne same]
  have old : ∀ b rb, s.heap b = some rb → b ≠ s.allocated := by
    rintro b rb live rfl
    rw [frontier] at live
    cases live
  constructor
  case issued =>
    intro a' ov' known
    rw [allocated]
    exact Nat.lt_succ_of_lt (ledger.issued a' ov' (issued a' ov' known))
  case internal =>
    intro a' ov' known pending
    by_cases same : ov' = ov
    · refine ⟨s.allocated, r, notYet, ?_, at_ov.trans same.symm⟩
      rw [heap, Function.update_self]
    · have pending' : (s.overlapped ov').internal = statusPending := by
        rw [overlapped] at pending
        simpa [State.store, Function.update_of_ne same] using pending
      obtain ⟨b, rb, before, liveB, eq⟩ := ledger.internal a' ov' (issued a' ov' known) pending'
      have ne := old b rb liveB
      exact ⟨b, rb, unstored b ne before, by rw [heap, Function.update_of_ne ne, liveB], eq⟩
  case event =>
    intro a' ov' known off
    rw [hEvent, event] at off
    obtain ⟨b, rb, before, liveB, eq⟩ := ledger.event a' ov' (issued a' ov' known) off
    have ne := old b rb liveB
    refine ⟨b, rb, (unsignalled b ne).mpr before, ?_, ?_⟩
    · rw [heap, Function.update_of_ne ne, liveB]
    · rw [hEvent, hEvent, eq]
  case once => rw [signals]; exact ledger.once
  case bound =>
    intro b mem
    rw [signals] at mem
    rw [allocated]
    exact Nat.lt_succ_of_lt (ledger.bound b mem)
  case done =>
    intro b mem before
    rw [signals] at mem
    have ne : b ≠ s.allocated := Nat.ne_of_lt (ledger.bound b mem)
    exact ledger.done b mem ((unsignalled b ne).mp before)
  case all =>
    intro b lt
    rw [allocated] at lt
    rw [signals]
    by_cases here : b = s.allocated
    · rw [here]
      exact .inr notYet'
    · rcases ledger.all b (Nat.lt_of_le_of_ne (Nat.le_of_lt_succ lt) here) with mem | before
      · exact .inl mem
      · exact .inr ((unsignalled b here).mpr before)

/-! ## Steps of one thread on the ledger -/

variable {t : ℕ} {c c' : Call} {w : Index} {p p' : Worker}

/-- The requests are there with the same `OVERLAPPED`. -/
def SameTargets (heap heap' : Heap) : Prop :=
  ∀ b, (heap' b).map AsyncIoRequest.lpOverlapped = (heap b).map AsyncIoRequest.lpOverlapped

theorem SameTargets.refl (heap : Heap) : SameTargets heap heap := fun _ => rfl

theorem SameTargets.exists {heap heap' : Heap} (same : SameTargets heap heap') {b : Ref}
    {r : AsyncIoRequest} (live : heap b = some r) :
    ∃ r', heap' b = some r' ∧ r'.lpOverlapped = r.lpOverlapped := by
  have eq := same b
  rw [live, Option.map_some] at eq
  exact Option.map_eq_some_iff.mp eq

theorem SameTargets.symm {heap heap' : Heap} (same : SameTargets heap heap') :
    SameTargets heap' heap := fun b => (same b).symm

theorem SameTargets.live {heap heap' : Heap} (same : SameTargets heap heap') {b : Ref}
    (live : ∃ r, heap b = some r) : ∃ r, heap' b = some r := by
  obtain ⟨r, eq⟩ := live
  obtain ⟨r', eq', -⟩ := same.exists eq
  exact ⟨r', eq'⟩

theorem SameData.targets {heap heap' : Heap} (same : SameData heap heap') :
    SameTargets heap heap' := by
  intro b
  have eq := congrArg (Option.map AsyncIoRequest.lpOverlapped) (same b)
  rw [Option.map_map, Option.map_map] at eq
  exact eq

theorem Before.client_iff {f : Worker → Option Ref} {g : Call → Option Ref}
    (at_t : s.calls[t]? = some c) (worker : s'.worker = s.worker)
    (calls : s'.calls = s.calls.set t c') (targets : SameTargets s.heap s'.heap)
    (stage : g c' = g c) (b : Ref) : Before f g s' b ↔ Before f g s b := by
  have lt : t < s.calls.length := (List.getElem?_eq_some_iff.mp at_t).1
  constructor
  · intro before
    refine before.of_set_call at_t worker calls (targets.symm.live before.1) ?_
    rw [← stage]
    apply before.2.2 c'
    rw [calls]
    exact List.mem_set lt _
  · intro before
    refine before.set_call worker calls (targets.live before.1) ?_
    rw [stage]
    exact before.2.2 c (List.mem_of_getElem? at_t)

theorem Before.worker_iff {f : Worker → Option Ref} {g : Call → Option Ref}
    (at_w : s.worker w = p) (calls : s'.calls = s.calls)
    (worker : s'.worker = Function.update s.worker w p') (targets : SameTargets s.heap s'.heap)
    (stage : f p' = f p) (b : Ref) : Before f g s' b ↔ Before f g s b := by
  constructor
  · intro before
    refine before.of_set_worker at_w calls worker (targets.symm.live before.1) ?_
    rw [← stage]
    have here := before.2.1 w
    rw [worker, Function.update_self] at here
    exact here
  · intro before
    refine before.set_worker calls worker (targets.live before.1) ?_
    rw [stage, ← at_w]
    exact before.2.1 w

theorem Ledger.client (ledger : Ledger s) (at_t : s.calls[t]? = some c)
    (worker : s'.worker = s.worker) (calls : s'.calls = s.calls.set t c')
    (targets : SameTargets s.heap s'.heap) (overlapped : s'.overlapped = s.overlapped)
    (event : s'.event = s.event) (signals : s'.signals = s.signals)
    (allocated : s'.allocated = s.allocated)
    (issued : ∀ a ov, Issued s' a ov → Issued s a ov ∨ Open s a ov)
    (stored : c'.stored = c.stored) (signalled : c'.signalled = c.signalled) : Ledger s' :=
  ledger.keep issued (fun b => (Before.client_iff at_t worker calls targets stored b).mpr)
    (fun b => Before.client_iff at_t worker calls targets signalled b)
    (fun _ _ live => targets.exists live) overlapped event signals allocated

theorem Ledger.worker (ledger : Ledger s) (at_w : s.worker w = p) (calls : s'.calls = s.calls)
    (worker : s'.worker = Function.update s.worker w p')
    (targets : SameTargets s.heap s'.heap) (overlapped : s'.overlapped = s.overlapped)
    (event : s'.event = s.event) (signals : s'.signals = s.signals)
    (allocated : s'.allocated = s.allocated) (replies : s'.replies = s.replies)
    (stored : p'.stored = p.stored) (signalled : p'.signalled = p.signalled) : Ledger s' := by
  have issued : ∀ a ov, Issued s' a ov → Issued s a ov ∨ Open s a ov := by
    intro a ov known
    left
    rwa [Issued, calls, replies] at known
  exact ledger.keep issued
    (fun b => (Before.worker_iff at_w calls worker targets stored b).mpr)
    (fun b => Before.worker_iff at_w calls worker targets signalled b)
    (fun _ _ live => targets.exists live) overlapped event signals allocated

theorem issued_client (calls : s'.calls = s.calls.set t c')
    (replies : ∀ u a ov, (u, Reply.pending a ov) ∈ s'.replies → Issued s a ov)
    (quiet : ∀ i a ov, c' ≠ .waking i a ov) (a : Ref) (ov : Addr) (known : Issued s' a ov) :
    Issued s a ov := by
  rcases known with ⟨u, mem⟩ | ⟨i, mem⟩
  · exact replies u a ov mem
  · rw [calls] at mem
    rcases List.mem_or_eq_of_mem_set mem with old | new
    · exact .inr ⟨i, old⟩
    · exact absurd new.symm (quiet i a ov)

theorem Ledger.go (ledger : Ledger s) (at_t : s.calls[t]? = some c)
    (quiet : ∀ i a ov, c' ≠ .waking i a ov) (stored : c'.stored = c.stored)
    (signalled : c'.signalled = c.signalled) : Ledger (s.goto t c') := by
  refine ledger.client at_t rfl rfl (SameTargets.refl _) rfl rfl rfl rfl ?_ stored signalled
  intro a ov known
  left
  refine issued_client rfl ?_ quiet a ov known
  exact fun u _ _ mem => .inl ⟨u, mem⟩

theorem Ledger.reply (ledger : Ledger s) (at_t : s.calls[t]? = some c)
    (stored : c.stored = none) (signalled : c.signalled = none) {r : Reply}
    (plain : ∀ a ov, r ≠ .pending a ov) : Ledger (s.reply t r) := by
  refine ledger.client at_t rfl rfl (SameTargets.refl _) rfl rfl rfl rfl ?_ stored.symm
    signalled.symm
  intro a ov known
  left
  refine issued_client rfl ?_ (fun i a ov eq => by cases eq) a ov known
  intro u a ov mem
  rcases List.mem_append.mp mem with old | new
  · exact .inl ⟨u, old⟩
  · cases List.mem_singleton.mp new
    exact absurd rfl (plain a ov)

theorem Ledger.work (ledger : Ledger s) (at_w : s.worker w = p) (stored : p'.stored = p.stored)
    (signalled : p'.signalled = p.signalled) : Ledger (s.work w p') :=
  ledger.worker at_w rfl rfl (SameTargets.refl _) rfl rfl rfl rfl rfl stored signalled

end Ledger

end Odin32.Overlapped
