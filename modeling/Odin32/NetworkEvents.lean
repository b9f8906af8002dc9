import Mathlib.Data.Nat.Bitwise
import Mathlib.Logic.Function.Basic
import Mathlib.Tactic.Common

/-! # Network events of a socket

The thread of a socket in `WSA_SELECT_HEVENT` mode that notifies events, and the threads that call
`WSAEnumNetworkEventsWorker` for the socket. Each access to the mask, to an error code and to the
event object is one step. -/

set_option autoImplicit false

namespace Odin32.NetworkEvents

def fdMaxEvents : ℕ := 10

/-- Where `AsyncSelectNotifyEvent` is. -/
inductive Notifier where
  | idle
  /-- The mask is read for `lLastEvent |= event`. -/
  | loaded (bit : Fin fdMaxEvents) (socket_error : ℤ) (lLastEvent : ℕ)
  | stored (bit : Fin fdMaxEvents) (socket_error : ℤ)
  | coded (bit : Fin fdMaxEvents)

/-- Where a call of `WSAEnumNetworkEventsWorker` is. -/
inductive Caller where
  | idle
  /-- So many error codes are copied. The mutex is held. -/
  | copying (hEvent : Bool) (copied : ℕ) (iErrorCode : ℕ → ℤ)
  | resetting

structure State where
  lLastEvent : ℕ
  /-- The error codes; what follows is the word behind the array. -/
  iErrorCode : ℕ → ℤ
  signalled : Bool
  notifier : Notifier
  caller : ℕ → Caller
  asyncThreadMutex : Option ℕ

def init (signalled : Bool) : State where
  lLastEvent := 0
  iErrorCode := fun _ => 0
  signalled := signalled
  notifier := .idle
  caller := fun _ => .idle
  asyncThreadMutex := none

def event (bit : Fin fdMaxEvents) : ℕ := 1 <<< bit.val

/-- The loop that counts the shifts of a 32-bit event value. -/
def slotLoop : ℕ → ℕ → ℕ → ℕ
  | 0, slot, _ => slot
  | left + 1, slot, eventValue =>
    if eventValue > 0 then slotLoop left (slot + 1) (eventValue >>> 1) else slot

def slot (event : ℕ) : ℕ := slotLoop 32 0 event

inductive Op where
  | load (bit : Fin fdMaxEvents) (socket_error : ℤ)
  | store
  | code
  | setEvent
  | enter (c : ℕ) (hEvent : Bool)
  | copy (c : ℕ)
  | exchange (c : ℕ)
  | resetEvent (c : ℕ)

/-- One step; `none` where the thread is not at it. -/
def step (s : State) : Op → Option State
  | .load bit socket_error =>
    match s.notifier with
    | .idle => some { s with notifier := .loaded bit socket_error s.lLastEvent }
    | _ => none
  | .store =>
    match s.notifier with
    | .loaded bit socket_error lLastEvent =>
      some { s with lLastEvent := lLastEvent ||| event bit, notifier := .stored bit socket_error }
    | _ => none
  | .code =>
    match s.notifier with
    | .stored bit socket_error =>
      some { s with
        iErrorCode := Function.update s.iErrorCode (slot (event bit)) socket_error
        notifier := .coded bit }
    | _ => none
  | .setEvent =>
    match s.notifier with
    | .coded _ => some { s with signalled := true, notifier := .idle }
    | _ => none
  | .enter c hEvent =>
    match s.caller c, s.asyncThreadMutex with
    | .idle, none =>
      some { s with
        caller := Function.update s.caller c (.copying hEvent 0 fun _ => 0)
        asyncThreadMutex := some c }
    | _, _ => none
  | .copy c =>
    match s.caller c with
    | .copying hEvent copied iErrorCode =>
      if copied < fdMaxEvents then
        some { s with caller := Function.update s.caller c (.copying hEvent (copied + 1)
          (Function.update iErrorCode copied (s.iErrorCode copied))) }
      else none
    | _ => none
  | .exchange c =>
    match s.caller c with
    | .copying hEvent copied _ =>
      if copied = fdMaxEvents then
        some { s with
          lLastEvent := 0
          caller := Function.update s.caller c (if hEvent then .resetting else .idle)
          asyncThreadMutex := none }
      else none
    | _ => none
  | .resetEvent c =>
    match s.caller c with
    | .resetting =>
      some { s with signalled := false, caller := Function.update s.caller c .idle }
    | _ => none

/-! ## What is promised -/

/-- A notification that goes on. -/
structure UnderWay where
  bit : ℕ
  /-- Its event was reported since it began. -/
  reported : Bool
  /-- And a report of it cannot have been for an earlier notification. -/
  used : Bool

/-- What is known of the notifications and of the reports so far. -/
structure Ledger where
  underWay : Option UnderWay
  /-- Events notified and not reported since the notification began. -/
  owed : ℕ → Bool
  /-- Events with a notification that has ended and may not have been reported. -/
  old : ℕ → Bool
  /-- The notifications that have begun. -/
  told : List (ℕ × ℤ)

namespace Ledger

variable (l : Ledger)

def start : Ledger := ⟨none, fun _ => false, fun _ => false, []⟩

def begins (bit : ℕ) (socket_error : ℤ) : Ledger :=
  { l with underWay := some ⟨bit, false, false⟩, told := (bit, socket_error) :: l.told }

def ends : Ledger :=
  match l.underWay with
  | none => l
  | some n =>
    { l with
      underWay := none
      owed := Function.update l.owed n.bit (l.owed n.bit || !n.reported)
      old := Function.update l.old n.bit (l.old n.bit || !n.used) }

def reports (lNetworkEvents : ℕ) : Ledger where
  underWay := l.underWay.map fun n =>
    ⟨n.bit, n.reported || lNetworkEvents.testBit n.bit,
      n.used || (lNetworkEvents.testBit n.bit && !l.old n.bit)⟩
  owed := fun bit => l.owed bit && !lNetworkEvents.testBit bit
  old := fun bit => l.old bit && !lNetworkEvents.testBit bit
  told := l.told

/-- An event may be reported (again). -/
def fresh (bit : ℕ) : Prop :=
  l.old bit = true ∨ ∃ n, l.underWay = some n ∧ n.bit = bit ∧ n.used = false

/-- What a step adds to what is known. -/
def after (s : State) : Op → Ledger
  | .load bit socket_error => l.begins bit socket_error
  | .setEvent => l.ends
  | .exchange _ => l.reports s.lLastEvent
  | _ => l

end Ledger

/-- A report shows every event that is owed, shows an event once for a notification of it, and with
the error of a notification of it. -/
structure ReportRight (l : Ledger) (lNetworkEvents : ℕ) (iErrorCode : ℕ → ℤ) : Prop where
  owed : ∀ bit, l.owed bit = true → lNetworkEvents.testBit bit = true
  fresh : ∀ bit, lNetworkEvents.testBit bit = true → l.fresh bit
  told : ∀ bit, lNetworkEvents.testBit bit = true → (bit, iErrorCode bit) ∈ l.told

def StepRight (s : State) (l : Ledger) : Op → Prop
  | .exchange c => ∀ hEvent copied iErrorCode, s.caller c = .copying hEvent copied iErrorCode →
    ReportRight l s.lLastEvent iErrorCode
  | _ => True

def Quiescent (s : State) : Prop := s.notifier = .idle ∧ ∀ c, s.caller c = .idle

/-- At rest the event object is signalled while an event is owed. -/
def Signals (s : State) (l : Ledger) : Prop :=
  Quiescent s → ∀ bit, l.owed bit = true → s.signalled = true

def RunPromised : State → Ledger → List Op → Prop
  | s, l, [] => Signals s l
  | s, l, op :: ops => Signals s l ∧
    ∀ s', step s op = some s' → StepRight s l op ∧ RunPromised s' (l.after s op) ops

/-! ## When it holds -/

/-- A notification goes on that has yet to set the event object. -/
def Notifier.WillSet : Notifier → Prop
  | .stored _ _ => True
  | .coded _ => True
  | _ => False

/-- No notification has an error; no report is made while a notification holds an older mask with
events in it; and the event object is not reset with an event in the mask, unless a notification
has yet to set it. -/
def StepFits (s : State) : Op → Prop
  | .load _ socket_error => socket_error = 0
  | .exchange _ => ∀ bit socket_error lLastEvent,
    s.notifier = .loaded bit socket_error lLastEvent → lLastEvent = 0
  | .resetEvent _ => s.lLastEvent = 0 ∨ s.notifier.WillSet
  | _ => True

def RunFits : State → List Op → Prop
  | _, [] => True
  | s, op :: ops => StepFits s op ∧ ∀ s', step s op = some s' → RunFits s' ops

/-! ## The slot -/

/-! ## Runs -/

/-- The event of a notification that has stored it. -/
def Notifier.put : Notifier → Option ℕ
  | .stored bit _ => some bit
  | .coded bit => some bit
  | _ => none

/-- The event of a notification. -/
def Notifier.bit : Notifier → Option ℕ
  | .idle => none
  | .loaded bit _ _ => some bit
  | .stored bit _ => some bit
  | .coded bit => some bit

structure Inv (s : State) (l : Ledger) : Prop where
  /-- No slot has an error. -/
  noError : ∀ i, s.iErrorCode i = 0
  copied : ∀ c hEvent copied iErrorCode, s.caller c = .copying hEvent copied iErrorCode →
    ∀ i, iErrorCode i = 0
  quiet : ∀ bit socket_error, s.notifier = .stored bit socket_error → socket_error = 0
  /-- The mask a notification holds is the mask. -/
  loaded : ∀ bit socket_error lLastEvent, s.notifier = .loaded bit socket_error lLastEvent →
    lLastEvent = s.lLastEvent ∧ socket_error = 0 ∧
      l.underWay = some ⟨bit, false, false⟩
  underWay : l.underWay.map UnderWay.bit = s.notifier.bit
  begun : ∀ bit, s.notifier.bit = some bit → (bit, 0) ∈ l.told
  put : ∀ bit n, s.notifier.put = some bit → l.underWay = some n → n.reported = false →
    s.lLastEvent.testBit bit = true
  owed : ∀ bit, l.owed bit = true → s.lLastEvent.testBit bit = true
  mask : ∀ bit, s.lLastEvent.testBit bit = true → l.fresh bit ∧ (bit, 0) ∈ l.told
  signals : s.lLastEvent ≠ 0 → s.signalled = true ∨ s.notifier.WillSet

theorem init_inv (signalled : Bool) : Inv (init signalled) .start where
  noError _ := rfl
  copied _ _ _ _ at_c := by cases at_c
  quiet _ _ at_n := by cases at_n
  loaded _ _ _ at_n := by cases at_n
  underWay := rfl
  begun _ at_n := by cases at_n
  put _ _ at_n := by cases at_n
  owed _ owed := by cases owed
  mask bit there := by
    rw [show (init signalled).lLastEvent = 0 from rfl, Nat.zero_testBit] at there
    cases there
  signals there := absurd rfl there

theorem testBit_event (bit : Fin fdMaxEvents) (k : ℕ) :
    (event bit).testBit k = decide (bit.val = k) := by
  rw [event, Nat.one_shiftLeft, Nat.testBit_two_pow]

variable {s s' : State} {l : Ledger}

/-! ## The steps of a notification -/

theorem Inv.load (inv : Inv s l) {bit : Fin fdMaxEvents} {socket_error : ℤ}
    (fits : socket_error = 0) (idle : s.notifier = .idle) :
    Inv { s with notifier := .loaded bit socket_error s.lLastEvent }
      (l.begins bit socket_error) where
  noError := inv.noError
  copied := inv.copied
  quiet _ _ at_n := by cases at_n
  loaded _ _ _ at_n := by
    cases at_n
    exact ⟨rfl, fits, rfl⟩
  underWay := rfl
  begun k at_n := by
    cases at_n
    rw [fits]
    exact List.mem_cons_self
  put _ _ at_n := by cases at_n
  owed := inv.owed
  mask k there := by
    obtain ⟨fresh, told⟩ := inv.mask k there
    refine ⟨?_, List.mem_cons_of_mem _ told⟩
    rcases fresh with old | ⟨n, under, -, -⟩
    · exact .inl old
    · have none_there := inv.underWay
      rw [under, idle] at none_there
      cases none_there
  signals there := by
    rcases inv.signals there with set | will
    · exact .inl set
    · rw [idle] at will
      exact will.elim

theorem Inv.store (inv : Inv s l) {bit : Fin fdMaxEvents} {socket_error : ℤ} {lLastEvent : ℕ}
    (at_n : s.notifier = .loaded bit socket_error lLastEvent) :
    Inv { s with lLastEvent := lLastEvent ||| event bit, notifier := .stored bit socket_error }
      l := by
  obtain ⟨rfl, quiet, under⟩ := inv.loaded _ _ _ at_n
  have grown : ∀ k, (s.lLastEvent ||| event bit).testBit k = true ↔
      s.lLastEvent.testBit k = true ∨ bit.val = k := by
    intro k
    rw [Nat.testBit_or, testBit_event, Bool.or_eq_true, decide_eq_true_eq]
  have here : s.notifier.bit = some bit.val := by rw [at_n]; rfl
  refine ⟨inv.noError, inv.copied, ?_, ?_, ?_, ?_, ?_, ?_, ?_, fun _ => .inr trivial⟩
  · intro bit' socket_error' at_n'
    cases at_n'
    exact quiet
  · intro _ _ _ at_n'
    cases at_n'
  · rw [under]
    rfl
  · intro k at_n'
    cases at_n'
    exact inv.begun _ here
  · intro k n at_n' _ _
    cases at_n'
    exact (grown _).mpr (.inr rfl)
  · intro k owed
    exact (grown k).mpr (.inl (inv.owed k owed))
  · intro k there
    rcases (grown k).mp there with before | rfl
    · exact inv.mask k before
    · exact ⟨.inr ⟨_, under, rfl, rfl⟩, inv.begun _ here⟩

theorem Inv.code (inv : Inv s l) {bit : Fin fdMaxEvents} {socket_error : ℤ}
    (at_n : s.notifier = .stored bit socket_error) :
    Inv { s with
      iErrorCode := Function.update s.iErrorCode (slot (event bit)) socket_error
      notifier := .coded bit } l := by
  have quiet := inv.quiet _ _ at_n
  have bit_eq : (Notifier.coded bit).bit = s.notifier.bit := by rw [at_n]; rfl
  have put_eq : (Notifier.coded bit).put = s.notifier.put := by rw [at_n]; rfl
  refine ⟨?_, inv.copied, ?_, ?_, ?_, ?_, ?_, inv.owed, inv.mask, fun _ => .inr trivial⟩
  · intro i
    show Function.update s.iErrorCode _ socket_error i = 0
    rw [Function.update_apply, quiet, inv.noError]
    exact ite_self _
  · intro _ _ at_n'
    cases at_n'
  · intro _ _ _ at_n'
    cases at_n'
  · rw [bit_eq]
    exact inv.underWay
  · rw [bit_eq]
    exact inv.begun
  · rw [put_eq]
    exact inv.put

theorem Inv.setEvent (inv : Inv s l) {bit : Fin fdMaxEvents} (at_n : s.notifier = .coded bit) :
    Inv { s with signalled := true, notifier := .idle } l.ends := by
  have under := inv.underWay
  rw [at_n] at under
  obtain ⟨n, under, bit_eq⟩ := Option.map_eq_some_iff.mp under
  have ends : l.ends = { l with
      underWay := none
      owed := Function.update l.owed n.bit (l.owed n.bit || !n.reported)
      old := Function.update l.old n.bit (l.old n.bit || !n.used) } := by
    rw [Ledger.ends, under]
  have put := inv.put bit n (by rw [at_n]; rfl) under
  rw [ends]
  refine ⟨inv.noError, inv.copied, ?_, ?_, rfl, ?_, ?_, ?_, ?_, fun _ => .inl rfl⟩
  · intro _ _ at_n'
    cases at_n'
  · intro _ _ _ at_n'
    cases at_n'
  · intro _ at_n'
    cases at_n'
  · intro _ _ at_n'
    cases at_n'
  · intro k owed
    have now : Function.update l.owed n.bit (l.owed n.bit || !n.reported) k = true := owed
    rw [Function.update_apply] at now
    split_ifs at now with same
    · subst same
      rcases Bool.or_eq_true_iff.mp now with before | unreported
      · exact inv.owed _ before
      · rw [bit_eq]
        exact put (by simpa using unreported)
    · exact inv.owed k now
  · intro k there
    obtain ⟨fresh, told⟩ := inv.mask k there
    refine ⟨.inl ?_, told⟩
    show Function.update l.old n.bit (l.old n.bit || !n.used) k = true
    rw [Function.update_apply]
    rcases fresh with old | ⟨n', under', rfl, unused⟩
    · split_ifs with same
      · subst same
        rw [old, Bool.true_or]
      · exact old
    · rw [under] at under'
      cases under'
      rw [if_pos rfl, unused]
      exact Bool.or_true _

/-! ## The steps of a call -/

theorem Inv.caller (inv : Inv s l) (caller : ℕ → Caller) (asyncThreadMutex : Option ℕ)
    (copied : ∀ c hEvent copied iErrorCode, caller c = .copying hEvent copied iErrorCode →
      ∀ i, iErrorCode i = 0) :
    Inv { s with caller := caller, asyncThreadMutex := asyncThreadMutex } l :=
  ⟨inv.noError, copied, inv.quiet, inv.loaded, inv.underWay, inv.begun, inv.put, inv.owed,
    inv.mask, inv.signals⟩

theorem Inv.copies (inv : Inv s l) (c : ℕ) {moved : Caller}
    (copied : ∀ hEvent copied iErrorCode, moved = .copying hEvent copied iErrorCode →
      ∀ i, iErrorCode i = 0) :
    ∀ c' hEvent copied iErrorCode,
      Function.update s.caller c moved c' = .copying hEvent copied iErrorCode →
        ∀ i, iErrorCode i = 0 := by
  intro c' hEvent k iErrorCode at_c
  rw [Function.update_apply] at at_c
  split_ifs at at_c
  · exact copied _ _ _ at_c
  · exact inv.copied _ _ _ _ at_c

theorem Inv.exchange (inv : Inv s l) (c : ℕ) {moved : Caller}
    (copied : ∀ hEvent copied iErrorCode, moved = .copying hEvent copied iErrorCode →
      ∀ i, iErrorCode i = 0)
    (fits : ∀ bit socket_error lLastEvent, s.notifier = .loaded bit socket_error lLastEvent →
      lLastEvent = 0) :
    Inv { s with
      lLastEvent := 0
      caller := Function.update s.caller c moved
      asyncThreadMutex := none } (l.reports s.lLastEvent) := by
  refine ⟨inv.noError, inv.copies c copied, inv.quiet, ?_, ?_, inv.begun, ?_, ?_, ?_,
    fun there => absurd rfl there⟩
  · intro bit socket_error lLastEvent at_n
    obtain ⟨same, quiet, under⟩ := inv.loaded _ _ _ at_n
    have zero := fits _ _ _ at_n
    refine ⟨zero, quiet, ?_⟩
    rw [Ledger.reports, under, ← same, zero]
    simp
  · rw [← inv.underWay, Ledger.reports, Option.map_map]
    rfl
  · intro bit n at_n under unreported
    exfalso
    obtain ⟨n', under', rfl⟩ := Option.map_eq_some_iff.mp under
    have bit_eq : n'.bit = bit := by
      have same := inv.underWay
      rw [under'] at same
      have bits : s.notifier.bit = some bit := by
        revert at_n
        cases s.notifier <;> exact fun at_n => by cases at_n <;> rfl
      rw [bits] at same
      exact Option.some.inj same
    obtain ⟨before, missing⟩ := Bool.or_eq_false_iff.mp unreported
    rw [bit_eq, inv.put bit n' at_n under' before] at missing
    exact Bool.noConfusion missing
  · intro bit owed
    obtain ⟨before, missing⟩ := Bool.and_eq_true_iff.mp owed
    rw [inv.owed bit before] at missing
    exact Bool.noConfusion missing
  · intro bit there
    rw [Nat.zero_testBit] at there
    cases there

theorem Inv.resetEvent (inv : Inv s l) (c : ℕ) (fits : s.lLastEvent = 0 ∨ s.notifier.WillSet) :
    Inv { s with signalled := false, caller := Function.update s.caller c .idle } l :=
  ⟨inv.noError, inv.copies c (fun _ _ _ at_c => by cases at_c), inv.quiet, inv.loaded,
    inv.underWay, inv.begun, inv.put, inv.owed, inv.mask,
    fun there => .inr (fits.resolve_left there)⟩

/-! ## Every run -/

theorem Inv.reportRight (inv : Inv s l) {c : ℕ} {hEvent : Bool} {copied : ℕ}
    {iErrorCode : ℕ → ℤ} (at_c : s.caller c = .copying hEvent copied iErrorCode) :
    ReportRight l s.lLastEvent iErrorCode where
  owed := inv.owed
  fresh bit there := (inv.mask bit there).1
  told bit there := by
    rw [inv.copied _ _ _ _ at_c]
    exact (inv.mask bit there).2

theorem Inv.stepRight (inv : Inv s l) (op : Op) : StepRight s l op := by
  cases op with
  | exchange c => exact fun _ _ _ at_c => inv.reportRight at_c
  | _ => exact trivial

theorem Inv.signals' (inv : Inv s l) : Signals s l := by
  intro quiescent bit owed
  have there := inv.owed bit owed
  have nonzero : s.lLastEvent ≠ 0 := by
    intro zero
    rw [zero, Nat.zero_testBit] at there
    cases there
  rcases inv.signals nonzero with set | will
  · exact set
  · rw [quiescent.1] at will
    exact will.elim

theorem step_inv (inv : Inv s l) {op : Op} (fits : StepFits s op) (stepped : step s op = some s') :
    Inv s' (l.after s op) := by
  cases op with
  | load bit socket_error =>
    cases at_n : s.notifier <;> rw [step, at_n] at stepped <;> cases stepped
    exact inv.load fits at_n
  | store =>
    cases at_n : s.notifier <;> rw [step, at_n] at stepped <;> cases stepped
    exact inv.store at_n
  | code =>
    cases at_n : s.notifier <;> rw [step, at_n] at stepped <;> cases stepped
    exact inv.code at_n
  | setEvent =>
    cases at_n : s.notifier <;> rw [step, at_n] at stepped <;> cases stepped
    exact inv.setEvent at_n
  | enter c hEvent =>
    cases at_c : s.caller c <;> cases mutex : s.asyncThreadMutex <;>
      rw [step, at_c, mutex] at stepped <;> cases stepped
    apply inv.caller
    apply inv.copies c
    intro _ _ _ eq
    cases eq
    exact fun _ => rfl
  | copy c =>
    cases at_c : s.caller c <;> rw [step, at_c] at stepped <;> try cases stepped
    dsimp only at stepped
    split_ifs at stepped
    cases stepped
    apply inv.caller
    apply inv.copies c
    intro _ _ _ eq i
    cases eq
    rw [Function.update_apply, inv.noError, inv.copied _ _ _ _ at_c]
    exact ite_self _
  | exchange c =>
    cases at_c : s.caller c with
    | copying hEvent copied iErrorCode =>
      rw [step, at_c] at stepped
      dsimp only at stepped
      by_cases all : copied = fdMaxEvents
      · rw [if_pos all] at stepped
        cases stepped
        apply inv.exchange c _ fits
        intro _ _ _ eq
        cases hEvent <;> cases eq
      · rw [if_neg all] at stepped
        cases stepped
    | _ =>
      rw [step, at_c] at stepped
      cases stepped
  | resetEvent c =>
    cases at_c : s.caller c <;> rw [step, at_c] at stepped <;> cases stepped
    exact inv.resetEvent c fits

theorem runPromised_from (ops : List Op) (s : State) (l : Ledger) (inv : Inv s l)
    (fits : RunFits s ops) : RunPromised s l ops := by
  induction ops generalizing s l with
  | nil => exact inv.signals'
  | cons op ops ih =>
    refine ⟨inv.signals', fun s' stepped => ⟨inv.stepRight op, ?_⟩⟩
    exact ih s' _ (step_inv inv fits.1 stepped) (fits.2 s' stepped)

/-- Without errors, without a report while a notification holds events, and without a reset that an
event in the mask outlives, every report is right and no event is left without a signal. -/
theorem networkEvents_promised (signalled : Bool) (ops : List Op)
    (fits : RunFits (init signalled) ops) : RunPromised (init signalled) .start ops :=
  runPromised_from ops _ _ (init_inv signalled) fits

/-- The steps of a whole notification, and of a whole call. -/
def notification (bit : Fin fdMaxEvents) (socket_error : ℤ) : List Op :=
  [.load bit socket_error, .store, .code, .setEvent]

def call (c : ℕ) : List Op :=
  .enter c true :: List.replicate fdMaxEvents (.copy c) ++ [.exchange c, .resetEvent c]

theorem RunFits.cons {op : Op} {ops : List Op} (fits : StepFits s op)
    (stepped : step s op = some s') (later : RunFits s' ops) : RunFits s (op :: ops) := by
  refine ⟨fits, fun s'' stepped' => ?_⟩
  rw [stepped] at stepped'
  cases stepped'
  exact later

theorem RunFits.copies (c : ℕ) {hEvent : Bool} {ops : List Op} (left copied : ℕ)
    (all : copied + left = fdMaxEvents) {iErrorCode : ℕ → ℤ}
    (at_c : s.caller c = .copying hEvent copied iErrorCode)
    (later : ∀ s' iErrorCode', s'.lLastEvent = s.lLastEvent → s'.notifier = s.notifier →
      s'.caller c = .copying hEvent fdMaxEvents iErrorCode' → RunFits s' ops) :
    RunFits s (List.replicate left (.copy c) ++ ops) := by
  induction left generalizing s copied iErrorCode with
  | zero =>
    obtain rfl : copied = fdMaxEvents := by omega
    exact later s _ rfl rfl at_c
  | succ left ih =>
    have stepped : step s (.copy c) = some { s with
        caller := Function.update s.caller c (.copying hEvent (copied + 1)
          (Function.update iErrorCode copied (s.iErrorCode copied))) } := by
      rw [step, at_c]
      dsimp only
      rw [if_pos (by omega)]
    exact RunFits.cons trivial stepped
      (ih (copied + 1) (by omega) (Function.update_self ..) later)

theorem RunFits.notification (bit : Fin fdMaxEvents) {ops : List Op} (idle : s.notifier = .idle)
    (later : ∀ s', s'.notifier = .idle → s'.caller = s.caller →
      s'.asyncThreadMutex = s.asyncThreadMutex → RunFits s' ops) :
    RunFits s (notification bit 0 ++ ops) := by
  have loaded : step s (.load bit 0) = some { s with
      notifier := .loaded bit 0 s.lLastEvent } := by
    rw [step, idle]
  refine RunFits.cons rfl loaded ?_
  refine RunFits.cons trivial rfl ?_
  refine RunFits.cons trivial rfl ?_
  refine RunFits.cons trivial rfl ?_
  exact later _ rfl rfl rfl

theorem RunFits.call (c : ℕ) (idle : s.notifier = .idle) (free : s.caller c = .idle)
    (unheld : s.asyncThreadMutex = none) : RunFits s (call c) := by
  have entered : step s (.enter c true) = some { s with
      caller := Function.update s.caller c (.copying true 0 fun _ => 0)
      asyncThreadMutex := some c } := by
    rw [step, free, unheld]
  refine RunFits.cons trivial entered ?_
  refine RunFits.copies c fdMaxEvents 0 rfl (Function.update_self ..) ?_
  intro s' iErrorCode _ still at_c
  have exchanged : step s' (.exchange c) = some { s' with
      lLastEvent := 0
      caller := Function.update s'.caller c .resetting
      asyncThreadMutex := none } := by
    rw [step, at_c]
    rfl
  refine RunFits.cons ?_ exchanged ⟨.inl rfl, fun _ _ => trivial⟩
  intro _ _ _ loaded
  have none_loaded := (still.trans idle).symm.trans loaded
  cases none_loaded

theorem bit_lt {bit : ℕ} (lt : bit < 10) : bit < fdMaxEvents := lt

def fdReadBit : Fin fdMaxEvents := ⟨0, bit_lt (Nat.succ_pos 9)⟩

def fdConnectBit : Fin fdMaxEvents := ⟨4, bit_lt (Nat.lt_add_of_pos_right (Nat.succ_pos 5))⟩

/-- A notification without an error, and then a call. -/
def readThenCall : List Op := notification fdReadBit 0 ++ call 7

theorem readThenCall_fits : RunFits (init false) readThenCall := by
  apply RunFits.notification fdReadBit rfl
  intro s' idle caller unheld
  exact RunFits.call 7 idle (congrFun caller 7) unheld

theorem networkEvents_promised_read : RunPromised (init false) .start readThenCall :=
  networkEvents_promised false readThenCall readThenCall_fits

/-- The state and what is known of it behind the first steps of a run. -/
def reach : State → Ledger → List Op → Option (State × Ledger)
  | s, l, [] => some (s, l)
  | s, l, op :: ops => (step s op).bind fun s' => reach s' (l.after s op) ops

theorem RunPromised.reach {ops later : List Op} {l' : Ledger}
    (promised : RunPromised s l (ops ++ later))
    (reached : NetworkEvents.reach s l ops = some (s', l')) : RunPromised s' l' later := by
  induction ops generalizing s l with
  | nil =>
    cases reached
    exact promised
  | cons op ops ih =>
    obtain ⟨mid, stepped, rest⟩ := Option.bind_eq_some_iff.mp reached
    exact ih (promised.2 mid stepped).2 rest

/-- A connection that is refused, and a call up to where it reports. -/
def refused : List Op :=
  notification fdConnectBit 10061 ++ .enter 7 true :: List.replicate fdMaxEvents (.copy 7)

/-- The report has the error of slot 4, where no notification of `FD_CONNECT` stores one. -/
theorem refused_not_promised :
    ¬ ∀ (signalled : Bool) (ops : List Op), RunPromised (init signalled) .start ops := by
  intro all
  obtain ⟨s, l, codes, reached, mask, told, at_c, code⟩ : ∃ s l codes,
      reach (init false) .start refused = some (s, l) ∧
      s.lLastEvent.testBit 4 = true ∧ l.told = [(4, 10061)] ∧
      s.caller 7 = .copying true fdMaxEvents codes ∧ codes 4 = 0 :=
    ⟨_, _, _, rfl, by decide, rfl, rfl, by decide⟩
  have promised := (all false (refused ++ [.exchange 7])).reach reached
  have stepped : step s (.exchange 7) = some { s with
      lLastEvent := 0
      caller := Function.update s.caller 7 .resetting
      asyncThreadMutex := none } := by
    rw [step, at_c]
    rfl
  have shown := ((promised.2 _ stepped).1 true fdMaxEvents codes at_c).told 4 mask
  rw [told, code] at shown
  have wrong : ((4, 0) : ℕ × ℤ) ∉ [((4, 10061) : ℕ × ℤ)] := by decide
  exact wrong shown

end Odin32.NetworkEvents
