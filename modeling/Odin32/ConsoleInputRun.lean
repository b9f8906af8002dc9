import Odin32.ConsoleInput
import Mathlib.Tactic.Common

/-! # The input queue as a queue

The ring holds the queue from the event index on: the record of each entry, or a free slot
where its push is still under way. It stops being a queue where a record of type zero is
pushed, where pushes overtake one that is under way by a whole ring, where a flush meets
another call, and where a peek finds an event. -/

set_option autoImplicit false

namespace Odin32.ConsoleInput

open Word

/-! ## What is asked of a step -/

/-- What a reply tells against the queue it was made from. -/
def ReplyOk (s s' : State) : Reply → Prop
  | .pushed rc => rc ≠ 0 → s.queue.length = queueSize
  | .popped record => ∃ rest, s.queue = (record, none) :: rest ∧ s'.queue = rest
  | .empty => s.queue = [] ∨ ∃ record t rest, s.queue = (record, some t) :: rest
  | .peeked delivered expected => delivered = expected
  | .flushed => s'.queue = []

def Action.isPeek : Action → Bool
  | .peek _ => true
  | .peekNext => true
  | _ => false

/-- A push has its slot and has not filled it. -/
def Call.isPushing : Call → Bool
  | .pushing _ _ => true
  | _ => false

/-- The counter counts the queue when no push is under way. -/
def State.Counted (s : State) : Prop :=
  (∀ c ∈ s.calls, c.isPushing = false) → s.ulEvents = s.queue.length

structure StepOk (s : State) (act : Action) (s' : State) (reply : Option Reply) : Prop where
  reply : ∀ r, reply = some r → ReplyOk s s' r
  counted : s'.Counted
  peek : act.isPeek = true → s'.arrInputRecord = s.arrInputRecord ∧ s'.queue = s.queue

/-- Every step of a run is in order. -/
def RunOk : State → List (ℕ × Action) → Prop
  | _, [] => True
  | s, op :: ops => ∀ s' reply, step s op = some (s', reply) → StepOk s op.2 s' reply ∧ RunOk s' ops

/-- What a step needs. -/
def StepFits (s : State) (op : ℕ × Action) : Prop :=
  -- A flush that has begun is not interrupted.
  (∀ t store, s.calls[t]? = some (.flushing store) → op.1 = t) ∧
  match op.2 with
  | .push record => record.eventType ≠ 0 ∧
      (s.ulEvents = queueSize → (s.arrInputRecord s.ulIndexFree).eventType ≠ 0)
  | .fill rc => s.flVioConsole = true ∨ rc = 0
  | .peek buffer => s.ulEvents = 0 ∨ buffer = []
  | .flush => ∀ c ∈ s.calls, c.isPushing = false
  | _ => True

def StepsFit : State → List (ℕ × Action) → Prop
  | _, [] => True
  | s, op :: ops => StepFits s op ∧ ∀ s' reply, step s op = some (s', reply) → StepsFit s' ops

/-! ## The ring -/

/-- The slot of the entry `j` places behind the first one. -/
def slotOf (first j : ℕ) : ℕ := (first + j) % queueSize

theorem slotOf_inj {first j k : ℕ} (lessj : j < queueSize) (lessk : k < queueSize)
    (same : slotOf first j = slotOf first k) : j = k := by
  unfold slotOf queueSize at *
  omega

theorem nextIndex_eq {first : ℕ} (inside : first < queueSize) :
    nextIndex first = slotOf first 1 := by
  unfold nextIndex slotOf queueSize at *
  split <;> omega

theorem slotOf_slotOf (first j k : ℕ) : slotOf (slotOf first j) k = slotOf first (j + k) := by
  unfold slotOf queueSize
  omega

theorem slotOf_zero {first : ℕ} (inside : first < queueSize) : slotOf first 0 = first :=
  Nat.mod_eq_of_lt inside

/-- The slot of an entry: filled, or still free with its thread on the way. -/
def EntryAt (s : State) (slot : ℕ) (entry : Record × Option ℕ) : Prop :=
  entry.1.eventType ≠ 0 ∧
  match entry.2 with
  | none => s.arrInputRecord slot = entry.1
  | some t => s.calls[t]? = some (.pushing slot entry.1) ∧ (s.arrInputRecord slot).eventType = 0

/-- The ring between two calls of a flush. -/
structure RingOk (s : State) : Prop where
  inside : s.ulIndexEvent < queueSize
  full : s.queue.length ≤ queueSize
  events : s.ulEvents = s.queue.length
  free : s.ulIndexFree = slotOf s.ulIndexEvent s.queue.length
  entries : ∀ j entry, s.queue[j]? = some entry → EntryAt s (slotOf s.ulIndexEvent j) entry
  rest : ∀ j, s.queue.length ≤ j → j < queueSize →
    (s.arrInputRecord (slotOf s.ulIndexEvent j)).eventType = 0
  pushing : ∀ t slot record, s.calls[t]? = some (.pushing slot record) →
    ∃ j, s.queue[j]? = some (record, some t) ∧ slot = slotOf s.ulIndexEvent j
  peeking : ∀ (t : ℕ) current counter buffer expected,
    s.calls[t]? = some (.peeking current counter buffer expected) →
      counter = 0 ∧ buffer = [] ∧ expected = []

/-- The ring in a flush. -/
structure Flushing (s : State) (t store : ℕ) : Prop where
  here : s.calls[t]? = some (.flushing store)
  alone : ∀ (u : ℕ) store', s.calls[u]? = some (.flushing store') → u = t
  inRange : store < queueSize + 3
  quiet : ∀ c ∈ s.calls, c.isPushing = false
  events : s.ulEvents = s.queue.length
  free : 1 ≤ store → s.ulIndexFree = 0
  event : 2 ≤ store → s.ulIndexEvent = 0
  empty : 3 ≤ store → s.queue = []
  cleared : ∀ slot, slot + 3 < store → (s.arrInputRecord slot).eventType = 0
  peeking : ∀ (t' : ℕ) current counter buffer expected,
    s.calls[t']? = some (.peeking current counter buffer expected) →
      counter = 0 ∧ buffer = [] ∧ expected = []

/-- No thread is in a flush and the ring is in order, or one thread is alone in a flush. -/
def Inv (s : State) : Prop :=
  (RingOk s ∧ ∀ (t : ℕ) store, s.calls[t]? ≠ some (.flushing store)) ∨ ∃ t store, Flushing s t store

theorem RingOk.counted {s : State} (ring : RingOk s) : s.Counted := fun _ => ring.events

theorem Flushing.counted {s : State} {t store : ℕ} (flushing : Flushing s t store) : s.Counted :=
  fun _ => flushing.events

theorem set_at {calls : List Call} {t : ℕ} {c : Call} (at_t : calls[t]? = some c) (c' : Call)
    (u : ℕ) : (calls.set t c')[u]? = if u = t then some c' else calls[u]? := by
  obtain ⟨inside, -⟩ := List.getElem?_eq_some_iff.mp at_t
  rw [List.getElem?_set]
  by_cases same : t = u
  · rw [if_pos same, if_pos same.symm, if_pos inside]
  · rw [if_neg same, if_neg fun eq => same eq.symm]

theorem EntryAt.frame {s s' : State} {slot : ℕ} {entry : Record × Option ℕ}
    (held : EntryAt s slot entry) (record : s'.arrInputRecord slot = s.arrInputRecord slot)
    (calls : ∀ u, entry.2 = some u → s'.calls[u]? = s.calls[u]?) : EntryAt s' slot entry := by
  obtain ⟨record', pending⟩ := entry
  refine ⟨held.1, ?_⟩
  have rest := held.2
  cases pending with
  | none => exact record.trans rest
  | some u => exact ⟨(calls u rfl).trans rest.1, by rw [record]; exact rest.2⟩

theorem EntryAt.thread_ne {s : State} {slot t u : ℕ} {entry : Record × Option ℕ} {c : Call}
    (held : EntryAt s slot entry) (pending : entry.2 = some u) (at_t : s.calls[t]? = some c)
    (elsewhere : ∀ record, c ≠ .pushing slot record) : u ≠ t := by
  rintro rfl
  have rest := held.2
  rw [pending] at rest
  exact elsewhere _ (Option.some.inj (at_t.symm.trans rest.1))

theorem RingOk.goto {s : State} {t : ℕ} {c c' : Call} (ring : RingOk s)
    (at_t : s.calls[t]? = some c) (before : c.isPushing = false) (after : c'.isPushing = false)
    (peek : ∀ current counter buffer expected, c' = .peeking current counter buffer expected →
      counter = 0 ∧ buffer = [] ∧ expected = []) : RingOk (s.goto t c') := by
  refine ⟨ring.inside, ring.full, ring.events, ring.free, ?_, ring.rest, ?_, ?_⟩
  · intro j entry eq
    have held := ring.entries j entry eq
    refine held.frame rfl ?_
    intro u pending
    have other : u ≠ t := by
      apply held.thread_ne pending at_t
      rintro record rfl
      cases before
    exact (set_at at_t c' u).trans (if_neg other)
  · intro u slot record eq
    change (s.calls.set t c')[u]? = _ at eq
    rw [set_at at_t] at eq
    split at eq
    · obtain rfl := Option.some.inj eq
      cases after
    · exact ring.pushing u slot record eq
  · intro u current counter buffer expected eq
    change (s.calls.set t c')[u]? = _ at eq
    rw [set_at at_t] at eq
    split at eq
    · exact peek current counter buffer expected (Option.some.inj eq)
    · exact ring.peeking u current counter buffer expected eq

theorem RingOk.push {s : State} {t : ℕ} {record : Record} (ring : RingOk s)
    (at_t : s.calls[t]? = some .idle) (typed : record.eventType ≠ 0)
    (free : (s.arrInputRecord s.ulIndexFree).eventType = 0) (room : s.queue.length < queueSize) :
    RingOk ({ s with
      ulIndexFree := nextIndex s.ulIndexFree
      ulEvents := add32 s.ulEvents 1
      queue := s.queue ++ [(record, some t)] }.goto t (.pushing s.ulIndexFree record)) := by
  have slotInside : s.ulIndexFree < queueSize := by
    rw [ring.free]
    exact Nat.mod_lt _ (by decide)
  constructor
  case inside => exact ring.inside
  case full =>
    change (s.queue ++ [(record, some t)]).length ≤ queueSize
    rw [List.length_append, List.length_singleton]
    exact room
  case events =>
    change add32 s.ulEvents 1 = (s.queue ++ [(record, some t)]).length
    unfold queueSize at room
    rw [ring.events, add32_of_lt (by omega), List.length_append, List.length_singleton]
  case free =>
    change nextIndex s.ulIndexFree = slotOf s.ulIndexEvent (s.queue ++ [(record, some t)]).length
    rw [nextIndex_eq slotInside, ring.free, slotOf_slotOf, List.length_append,
      List.length_singleton]
  case entries =>
    intro j entry eq
    change (s.queue ++ [(record, some t)])[j]? = some entry at eq
    by_cases old : j < s.queue.length
    · rw [List.getElem?_append_left old] at eq
      have held := ring.entries j entry eq
      refine held.frame rfl ?_
      intro u pending
      have other : u ≠ t := held.thread_ne pending at_t fun _ same => by cases same
      exact (set_at at_t _ u).trans (if_neg other)
    · have last : j = s.queue.length := by
        obtain ⟨inside, -⟩ := List.getElem?_eq_some_iff.mp eq
        rw [List.length_append, List.length_singleton] at inside
        omega
      subst last
      rw [List.getElem?_append_right (Nat.le_refl _), Nat.sub_self] at eq
      obtain rfl : (record, some t) = entry := by simpa using eq
      refine ⟨typed, ?_, ?_⟩
      · change (s.calls.set t _)[t]? = some (.pushing (slotOf s.ulIndexEvent s.queue.length) record)
        rw [set_at at_t, if_pos rfl, ring.free]
      · change (s.arrInputRecord (slotOf s.ulIndexEvent s.queue.length)).eventType = 0
        rw [← ring.free]
        exact free
  case rest =>
    intro j above inside
    change (s.queue ++ [(record, some t)]).length ≤ j at above
    rw [List.length_append, List.length_singleton] at above
    exact ring.rest j (by omega) inside
  case pushing =>
    intro u slot record' eq
    change (s.calls.set t _)[u]? = _ at eq
    change ∃ j, (s.queue ++ [(record, some t)])[j]? = some (record', some u) ∧ _
    rw [set_at at_t] at eq
    split at eq
    · rename_i same
      subst same
      cases eq
      refine ⟨s.queue.length, ?_, ring.free⟩
      rw [List.getElem?_append_right (Nat.le_refl _), Nat.sub_self]
      rfl
    · obtain ⟨j, eq', slot'⟩ := ring.pushing u slot record' eq
      obtain ⟨inside, -⟩ := List.getElem?_eq_some_iff.mp eq'
      exact ⟨j, by rw [List.getElem?_append_left inside, eq'], slot'⟩
  case peeking =>
    intro u current counter buffer expected eq
    change (s.calls.set t _)[u]? = _ at eq
    rw [set_at at_t] at eq
    split at eq
    · cases eq
    · exact ring.peeking u current counter buffer expected eq

theorem RingOk.fill {s : State} {t slot : ℕ} {record : Record} (ring : RingOk s)
    (at_t : s.calls[t]? = some (.pushing slot record)) :
    RingOk ({ s.store slot record with queue := s.queue.map (filled t) }.goto t .idle) := by
  obtain ⟨j, mine, rfl⟩ := ring.pushing t slot record at_t
  obtain ⟨insidej, -⟩ := List.getElem?_eq_some_iff.mp mine
  have typed := (ring.entries j _ mine).1
  have full := ring.full
  constructor
  case inside => exact ring.inside
  case full =>
    change (s.queue.map (filled t)).length ≤ queueSize
    rw [List.length_map]
    exact full
  case events =>
    change s.ulEvents = (s.queue.map (filled t)).length
    rw [List.length_map]
    exact ring.events
  case free =>
    change s.ulIndexFree = slotOf s.ulIndexEvent (s.queue.map (filled t)).length
    rw [List.length_map]
    exact ring.free
  case entries =>
    intro k entry eq
    change (s.queue.map (filled t))[k]? = some entry at eq
    rw [List.getElem?_map] at eq
    obtain ⟨old, oldEq, rfl⟩ := Option.map_eq_some_iff.mp eq
    obtain ⟨insidek, -⟩ := List.getElem?_eq_some_iff.mp oldEq
    by_cases same : k = j
    · subst same
      obtain rfl := Option.some.inj (mine.symm.trans oldEq)
      unfold filled
      rw [if_pos rfl]
      exact ⟨typed, Function.update_self ..⟩
    · have held := ring.entries k old oldEq
      have apart : slotOf s.ulIndexEvent k ≠ slotOf s.ulIndexEvent j := fun eq' =>
        same (slotOf_inj (by omega) (by omega) eq')
      have other : ∀ u, old.2 = some u → u ≠ t := by
        intro u pending
        apply held.thread_ne pending at_t
        intro record' eq'
        exact apart (Call.pushing.inj eq').1.symm
      have kept : filled t old = old := by
        unfold filled
        exact if_neg fun pending => other t pending rfl
      rw [kept]
      refine held.frame (Function.update_of_ne apart ..) ?_
      intro u pending
      exact (set_at at_t .idle u).trans (if_neg (other u pending))
  case rest =>
    intro k above inside
    change (s.queue.map (filled t)).length ≤ k at above
    rw [List.length_map] at above
    have apart : slotOf s.ulIndexEvent k ≠ slotOf s.ulIndexEvent j := by
      intro eq'
      have := slotOf_inj inside (by omega) eq'
      omega
    change (Function.update s.arrInputRecord _ record (slotOf s.ulIndexEvent k)).eventType = 0
    rw [Function.update_of_ne apart]
    exact ring.rest k above inside
  case pushing =>
    intro u slot' record' eq
    change (s.calls.set t .idle)[u]? = _ at eq
    rw [set_at at_t] at eq
    split at eq
    · cases eq
    · rename_i other
      obtain ⟨k, eq', slot'⟩ := ring.pushing u slot' record' eq
      refine ⟨k, ?_, slot'⟩
      change (s.queue.map (filled t))[k]? = _
      rw [List.getElem?_map, eq']
      unfold filled
      simp [other]
  case peeking =>
    intro u current counter buffer expected eq
    change (s.calls.set t .idle)[u]? = _ at eq
    rw [set_at at_t] at eq
    split at eq
    · cases eq
    · exact ring.peeking u current counter buffer expected eq

theorem RingOk.first {s : State} (ring : RingOk s)
    (typed : (s.arrInputRecord s.ulIndexEvent).eventType ≠ 0) :
    ∃ rest, s.queue = (s.arrInputRecord s.ulIndexEvent, none) :: rest := by
  have here := slotOf_zero ring.inside
  cases queue : s.queue with
  | nil =>
    have free := ring.rest 0 (by rw [queue]; exact Nat.le_refl 0) (by decide)
    rw [here] at free
    exact absurd free typed
  | cons entry rest =>
    have held := ring.entries 0 entry (by rw [queue]; rfl)
    rw [here] at held
    obtain ⟨record, pending⟩ := entry
    have rest' := held.2
    cases pending with
    | some u => exact absurd rest'.2 typed
    | none =>
      refine ⟨rest, ?_⟩
      rw [rest']

theorem RingOk.take {s : State} {t : ℕ} {rest : List (Record × Option ℕ)}
    {first record : Record} (ring : RingOk s) (at_t : s.calls[t]? = some .popping)
    (queue : s.queue = (first, none) :: rest)
    (freed : record.eventType = 0) :
    RingOk ({ s.store s.ulIndexEvent record with
      ulEvents := sub32 s.ulEvents 1
      ulIndexEvent := nextIndex s.ulIndexEvent
      queue := s.queue.tail }.goto t .idle) := by
  have full := ring.full
  have events := ring.events
  have tail : s.queue.tail = rest := by rw [queue]; rfl
  have length : s.queue.length = rest.length + 1 := by rw [queue]; rfl
  have slots : ∀ j, slotOf (nextIndex s.ulIndexEvent) j = slotOf s.ulIndexEvent (j + 1) := by
    intro j
    rw [nextIndex_eq ring.inside, slotOf_slotOf, Nat.add_comm 1 j]
  have apart : ∀ j, j + 1 < queueSize → slotOf s.ulIndexEvent (j + 1) ≠ s.ulIndexEvent := by
    intro j inside same
    have := slotOf_inj inside (by decide) (same.trans (slotOf_zero ring.inside).symm)
    omega
  constructor
  case inside =>
    change nextIndex s.ulIndexEvent < queueSize
    rw [nextIndex_eq ring.inside]
    exact Nat.mod_lt _ (by decide)
  case full =>
    change s.queue.tail.length ≤ queueSize
    rw [tail]
    omega
  case events =>
    change sub32 s.ulEvents 1 = s.queue.tail.length
    unfold queueSize at full
    rw [tail, sub32_of_le (by omega) (by omega)]
    omega
  case free =>
    change s.ulIndexFree = slotOf (nextIndex s.ulIndexEvent) s.queue.tail.length
    rw [tail, slots, ring.free, length]
  case entries =>
    intro j entry' eq
    change s.queue.tail[j]? = some entry' at eq
    rw [tail] at eq
    obtain ⟨insidej, -⟩ := List.getElem?_eq_some_iff.mp eq
    have held := ring.entries (j + 1) entry' (by rw [queue]; exact eq)
    change EntryAt _ (slotOf (nextIndex s.ulIndexEvent) j) entry'
    rw [slots]
    refine held.frame (Function.update_of_ne (apart j (by omega)) ..) ?_
    intro u pending
    have other : u ≠ t := held.thread_ne pending at_t fun _ same => by cases same
    exact (set_at at_t .idle u).trans (if_neg other)
  case rest =>
    intro j above inside
    change s.queue.tail.length ≤ j at above
    rw [tail] at above
    change (Function.update s.arrInputRecord s.ulIndexEvent record
      (slotOf (nextIndex s.ulIndexEvent) j)).eventType = 0
    rw [slots]
    by_cases last : j + 1 < queueSize
    · rw [Function.update_of_ne (apart j last)]
      exact ring.rest (j + 1) (by omega) last
    · have around : slotOf s.ulIndexEvent (j + 1) = s.ulIndexEvent := by
        have := ring.inside
        unfold slotOf queueSize at *
        omega
      rw [around, Function.update_self]
      exact freed
  case pushing =>
    intro u slot record' eq
    change (s.calls.set t .idle)[u]? = _ at eq
    change ∃ j, s.queue.tail[j]? = some (record', some u) ∧
      slot = slotOf (nextIndex s.ulIndexEvent) j
    rw [set_at at_t] at eq
    split at eq
    · cases eq
    · obtain ⟨j, eq', slot'⟩ := ring.pushing u slot record' eq
      rw [queue] at eq'
      cases j with
      | zero => cases eq'
      | succ j => exact ⟨j, by rw [tail]; exact eq', by rw [slots]; exact slot'⟩
  case peeking =>
    intro u current counter buffer expected eq
    change (s.calls.set t .idle)[u]? = _ at eq
    rw [set_at at_t] at eq
    split at eq
    · cases eq
    · exact ring.peeking u current counter buffer expected eq

theorem RingOk.flush {s : State} {t : ℕ} (ring : RingOk s) (at_t : s.calls[t]? = some .idle)
    (alone : ∀ (u : ℕ) store, s.calls[u]? ≠ some (.flushing store))
    (quiet : ∀ c ∈ s.calls, c.isPushing = false) : Flushing (s.goto t (.flushing 0)) t 0 := by
  constructor
  case here => exact (set_at at_t _ t).trans (if_pos rfl)
  case alone =>
    intro u store eq
    change (s.calls.set t _)[u]? = _ at eq
    rw [set_at at_t] at eq
    split at eq
    · assumption
    · exact absurd eq (alone u store)
  case inRange => decide
  case quiet =>
    intro c mem
    rcases List.mem_or_eq_of_mem_set mem with old | rfl
    · exact quiet c old
    · rfl
  case events => exact ring.events
  case free => intro positive; omega
  case event => intro positive; omega
  case empty => intro positive; omega
  case cleared => intro slot below; omega
  case peeking =>
    intro u current counter buffer expected eq
    change (s.calls.set t _)[u]? = _ at eq
    rw [set_at at_t] at eq
    split at eq
    · cases eq
    · exact ring.peeking u current counter buffer expected eq

/-- The stores of a flush, before the thread moves on. -/
def State.flushStore (s : State) : ℕ → State
  | 0 => { s with ulIndexFree := 0 }
  | 1 => { s with ulIndexEvent := 0 }
  | 2 => { s with ulEvents := 0, queue := [] }
  | slot + 3 => s.store slot { s.arrInputRecord slot with eventType := 0 }

theorem flushNext_eq (s : State) (t store : ℕ) :
    s.flushNext t store =
      if store + 1 < queueSize + 3 then ((s.flushStore store).goto t (.flushing (store + 1)), none)
      else ((s.flushStore store).goto t .idle, some .flushed) := by
  unfold State.flushNext State.flushStore
  rcases store with _ | _ | _ | slot <;> rfl

theorem flushStore_calls (s : State) (store : ℕ) : (s.flushStore store).calls = s.calls := by
  rcases store with _ | _ | _ | slot <;> rfl

/-- What the stores have done by then. -/
structure Cleared (s : State) (store : ℕ) : Prop where
  events : s.ulEvents = s.queue.length
  free : 1 ≤ store → s.ulIndexFree = 0
  event : 2 ≤ store → s.ulIndexEvent = 0
  empty : 3 ≤ store → s.queue = []
  cleared : ∀ slot, slot + 3 < store → (s.arrInputRecord slot).eventType = 0

theorem Flushing.store {s : State} {t store : ℕ} (flushing : Flushing s t store) :
    Cleared (s.flushStore store) (store + 1) := by
  have ⟨_, _, _, _, events, free, event, empty, cleared, _⟩ := flushing
  rcases store with _ | _ | _ | slot
  · exact ⟨events, fun _ => rfl, fun above => by omega, fun above => by omega,
      fun slot below => by omega⟩
  · exact ⟨events, fun _ => free (by omega), fun _ => rfl, fun above => by omega,
      fun slot below => by omega⟩
  · exact ⟨rfl, fun _ => free (by omega), fun _ => event (by omega), fun _ => rfl,
      fun slot below => by omega⟩
  · refine ⟨events, fun _ => free (by omega), fun _ => event (by omega),
      fun _ => empty (by omega), ?_⟩
    intro slot' below
    change (Function.update s.arrInputRecord slot _ slot').eventType = 0
    by_cases here : slot' = slot
    · rw [here, Function.update_self]
    · rw [Function.update_of_ne here]
      exact cleared slot' (by omega)

theorem Flushing.next {s : State} {t store : ℕ} (flushing : Flushing s t store) :
    Inv (s.flushNext t store).1 ∧
      ((s.flushNext t store).2 = none ∨
        (s.flushNext t store).2 = some .flushed ∧ (s.flushNext t store).1.queue = []) := by
  have stored := flushing.store
  have at_t := flushing.here
  have calls : (s.flushStore store).calls[t]? = some (.flushing store) := by
    rw [flushStore_calls]
    exact at_t
  have peeking : ∀ c : Call, (∀ current counter buffer expected,
      c ≠ .peeking current counter buffer expected) → ∀ (u : ℕ) current counter buffer expected,
      ((s.flushStore store).goto t c).calls[u]? = some (.peeking current counter buffer expected) →
      counter = 0 ∧ buffer = [] ∧ expected = [] := by
    intro c elsewhere u current counter buffer expected eq
    change ((s.flushStore store).calls.set t c)[u]? = _ at eq
    rw [set_at calls, flushStore_calls] at eq
    split at eq
    · exact absurd (Option.some.inj eq) (elsewhere _ _ _ _)
    · exact flushing.peeking u current counter buffer expected eq
  have others : ∀ c : Call, (∀ store', c ≠ .flushing store') → ∀ (u : ℕ) store',
      ((s.flushStore store).goto t c).calls[u]? ≠ some (.flushing store') := by
    intro c elsewhere u store' eq
    change ((s.flushStore store).calls.set t c)[u]? = _ at eq
    rw [set_at calls, flushStore_calls] at eq
    split at eq
    · exact absurd (Option.some.inj eq) (elsewhere _)
    · rename_i other
      exact other (flushing.alone u store' eq)
  rw [flushNext_eq]
  by_cases more : store + 1 < queueSize + 3
  · rw [if_pos more]
    refine ⟨Or.inr ⟨t, store + 1, ?_⟩, Or.inl rfl⟩
    constructor
    case here => exact (set_at calls _ t).trans (if_pos rfl)
    case alone =>
      intro u store' eq
      change ((s.flushStore store).calls.set t _)[u]? = _ at eq
      rw [set_at calls, flushStore_calls] at eq
      split at eq
      · assumption
      · exact flushing.alone u store' eq
    case inRange => exact more
    case quiet =>
      intro c mem
      change c ∈ (s.flushStore store).calls.set t _ at mem
      rw [flushStore_calls] at mem
      rcases List.mem_or_eq_of_mem_set mem with old | rfl
      · exact flushing.quiet c old
      · rfl
    case events => exact stored.events
    case free => exact stored.free
    case event => exact stored.event
    case empty => exact stored.empty
    case cleared => exact stored.cleared
    case peeking => exact peeking _ fun _ _ _ _ same => by cases same
  · rw [if_neg more]
    have whole : store + 1 = queueSize + 3 := by
      have := flushing.inRange
      omega
    have empty : (s.flushStore store).queue = [] := stored.empty (by rw [whole]; omega)
    have first : (s.flushStore store).ulIndexEvent = 0 := stored.event (by rw [whole]; omega)
    refine ⟨Or.inl ⟨?_, others _ fun _ same => by cases same⟩, Or.inr ⟨rfl, empty⟩⟩
    constructor
    case inside =>
      change (s.flushStore store).ulIndexEvent < queueSize
      rw [first]
      decide
    case full =>
      change (s.flushStore store).queue.length ≤ queueSize
      rw [empty]
      exact Nat.zero_le _
    case events => exact stored.events
    case free =>
      change (s.flushStore store).ulIndexFree =
        slotOf (s.flushStore store).ulIndexEvent (s.flushStore store).queue.length
      rw [empty, first, stored.free (by omega)]
      rfl
    case entries =>
      intro j entry eq
      change (s.flushStore store).queue[j]? = some entry at eq
      rw [empty] at eq
      cases eq
    case rest =>
      intro j _ inside
      change ((s.flushStore store).arrInputRecord
        (slotOf (s.flushStore store).ulIndexEvent j)).eventType = 0
      have slot : slotOf (s.flushStore store).ulIndexEvent j = j := by
        rw [first]
        unfold slotOf
        rw [Nat.zero_add, Nat.mod_eq_of_lt inside]
      rw [slot]
      exact stored.cleared j (by omega)
    case pushing =>
      intro u slot record eq
      change ((s.flushStore store).calls.set t .idle)[u]? = _ at eq
      rw [set_at calls, flushStore_calls] at eq
      split at eq
      · cases eq
      · exact absurd (flushing.quiet _ (List.mem_of_getElem? eq)) Bool.true_eq_false.mp
    case peeking => exact peeking _ fun _ _ _ _ same => by cases same

/-! ## Runs -/

theorem Inv.counted {s : State} (inv : Inv s) : s.Counted := by
  rcases inv with ⟨ring, -⟩ | ⟨t, store, flushing⟩
  · exact ring.counted
  · exact flushing.counted

theorem no_flush {s : State} {t : ℕ} {c c' : Call} (at_t : s.calls[t]? = some c)
    (alone : ∀ (u : ℕ) store, s.calls[u]? ≠ some (.flushing store))
    (elsewhere : ∀ store, c' ≠ .flushing store) (u store : ℕ) :
    (s.calls.set t c')[u]? ≠ some (.flushing store) := by
  rw [set_at at_t]
  split
  · intro eq
    exact elsewhere store (Option.some.inj eq)
  · exact alone u store

theorem inv_goto {s : State} {t : ℕ} {c c' : Call} (ring : RingOk s)
    (alone : ∀ (u : ℕ) store, s.calls[u]? ≠ some (.flushing store))
    (at_t : s.calls[t]? = some c) (before : c.isPushing = false)
    (after : c' = .idle ∨ c' = .popping) : Inv (s.goto t c') := by
  refine Or.inl ⟨ring.goto at_t before ?_ ?_, no_flush at_t alone ?_⟩
  · rcases after with rfl | rfl <;> rfl
  · rintro current counter buffer expected rfl
    rcases after with same | same <;> cases same
  · rintro store rfl
    rcases after with same | same <;> cases same

theorem quiet_step {s s' : State} {act : Action} {reply : Option Reply} (inv : Inv s')
    (noPeek : act.isPeek = false) (ok : ∀ r, reply = some r → ReplyOk s s' r) :
    StepOk s act s' reply ∧ Inv s' :=
  ⟨⟨ok, inv.counted, fun peek => absurd (noPeek.symm.trans peek) (by decide)⟩, inv⟩

theorem push_ok {s : State} {t : ℕ} {record : Record} (ring : RingOk s)
    (alone : ∀ (u : ℕ) store, s.calls[u]? ≠ some (.flushing store))
    (at_t : s.calls[t]? = some .idle) (fits : StepFits s (t, .push record)) :
    StepOk s (.push record) (s.push t record).1 (s.push t record).2 ∧ Inv (s.push t record).1 := by
  obtain ⟨-, typed, notFull⟩ := fits
  unfold State.push
  by_cases taken : (s.arrInputRecord s.ulIndexFree).eventType ≠ 0
  · rw [if_pos taken]
    refine quiet_step (Or.inl ⟨ring, alone⟩) rfl ?_
    rintro r ⟨⟩ -
    by_contra notAll
    have room : s.queue.length < queueSize := Nat.lt_of_le_of_ne ring.full notAll
    have free := ring.rest s.queue.length (Nat.le_refl _) room
    rw [← ring.free] at free
    exact taken free
  · rw [if_neg taken]
    have free : (s.arrInputRecord s.ulIndexFree).eventType = 0 := not_not.mp taken
    have room : s.queue.length < queueSize := by
      apply Nat.lt_of_le_of_ne ring.full
      intro all
      exact notFull (ring.events.trans all) free
    refine quiet_step (Or.inl ⟨ring.push at_t typed free room, ?_⟩) rfl ?_
    · exact no_flush at_t alone fun _ same => by cases same
    · rintro r ⟨⟩

theorem take_ok {s : State} {t : ℕ} (ring : RingOk s)
    (alone : ∀ (u : ℕ) store, s.calls[u]? ≠ some (.flushing store))
    (at_t : s.calls[t]? = some .popping) :
    StepOk s .take (s.take t).1 (s.take t).2 ∧ Inv (s.take t).1 := by
  unfold State.take
  simp only
  split
  · rename_i free
    refine quiet_step (inv_goto ring alone at_t rfl (Or.inl rfl)) rfl ?_
    rintro r ⟨⟩
    cases queue : s.queue with
    | nil => exact Or.inl queue
    | cons entry rest =>
      obtain ⟨record, pending⟩ := entry
      cases pending with
      | some u => exact Or.inr ⟨record, u, rest, queue⟩
      | none =>
        have held := ring.entries 0 (record, none) (by rw [queue]; rfl)
        rw [slotOf_zero ring.inside] at held
        have same : s.arrInputRecord s.ulIndexEvent = record := held.2
        rw [same] at free
        exact absurd free held.1
  · rename_i typed
    obtain ⟨rest, queue⟩ := ring.first typed
    refine quiet_step (Or.inl ⟨ring.take at_t queue rfl, ?_⟩) rfl ?_
    · exact no_flush at_t alone fun _ same => by cases same
    · rintro r ⟨⟩
      refine ⟨rest, queue, ?_⟩
      change s.queue.tail = rest
      rw [queue]
      rfl

theorem peek_ok {s : State} {t : ℕ} {buffer : List Record} {s' : State} {reply : Option Reply}
    (ring : RingOk s) (alone : ∀ (u : ℕ) store, s.calls[u]? ≠ some (.flushing store))
    (at_t : s.calls[t]? = some .idle) (fits : s.ulEvents = 0 ∨ buffer = [])
    (stepped : stepOf s t .idle (.peek buffer) = some (s', reply)) :
    StepOk s (.peek buffer) s' reply ∧ Inv s' := by
  simp only [stepOf, Option.some.injEq] at stepped
  split at stepped
  · rename_i empty
    cases stepped
    have inv : Inv s := Or.inl ⟨ring, alone⟩
    refine ⟨⟨?_, inv.counted, fun _ => ⟨rfl, rfl⟩⟩, inv⟩
    rintro r ⟨⟩
    rw [empty, Nat.min_zero]
    rfl
  · rename_i some_event
    cases stepped
    obtain rfl := fits.resolve_left some_event
    have inv : Inv (s.goto t (.peeking s.ulIndexEvent 0 []
        ((s.queue.map Prod.fst).take (min ([] : List Record).length s.ulEvents)))) := by
      refine Or.inl ⟨ring.goto at_t rfl rfl ?_, no_flush at_t alone fun _ same => by cases same⟩
      rintro current counter buffer expected ⟨⟩
      exact ⟨rfl, rfl, by simp⟩
    refine ⟨⟨?_, inv.counted, fun _ => ⟨rfl, rfl⟩⟩, inv⟩
    rintro r ⟨⟩

theorem reached {r : State × Option Reply} {s' : State} {reply : Option Reply}
    (eq : some r = some (s', reply)) : r.1 = s' ∧ r.2 = reply := by
  obtain rfl := Option.some.inj eq
  exact ⟨rfl, rfl⟩

theorem step_ok {s s' : State} {op : ℕ × Action} {reply : Option Reply} (inv : Inv s)
    (fits : StepFits s op) (stepped : step s op = some (s', reply)) :
    StepOk s op.2 s' reply ∧ Inv s' := by
  obtain ⟨t, act⟩ := op
  obtain ⟨c, at_t, stepped⟩ := Option.bind_eq_some_iff.mp stepped
  rcases inv with ⟨ring, alone⟩ | ⟨u, store, flushing⟩
  · cases c with
    | idle =>
      cases act with
      | push record =>
        obtain ⟨rfl, rfl⟩ := reached stepped
        exact push_ok ring alone at_t fits
      | pop =>
        simp only [stepOf, Option.some.injEq] at stepped
        split at stepped
        · rename_i empty
          cases stepped
          refine quiet_step (Or.inl ⟨ring, alone⟩) rfl ?_
          rintro r ⟨⟩
          exact Or.inl (List.length_eq_zero_iff.mp (ring.events.symm.trans empty))
        · cases stepped
          refine quiet_step (inv_goto ring alone at_t rfl (Or.inr rfl)) rfl ?_
          rintro r ⟨⟩
      | peek buffer => exact peek_ok ring alone at_t fits.2 stepped
      | flush =>
        cases stepped
        refine quiet_step (Or.inr ⟨t, 0, ring.flush at_t alone fits.2⟩) rfl ?_
        rintro r ⟨⟩
      | fill rc => cases stepped
      | take => cases stepped
      | peekNext => cases stepped
      | flushNext => cases stepped
    | pushing slot record =>
      cases act with
      | fill rc =>
        cases stepped
        have elsewhere : ∀ store, Call.idle ≠ .flushing store := fun _ same => by cases same
        refine quiet_step (Or.inl ⟨ring.fill at_t, no_flush at_t alone elsewhere⟩) rfl ?_
        rintro r ⟨⟩ failed
        rcases fits.2 with vio | posted
        · exact absurd (if_pos vio) failed
        · rw [posted] at failed
          exact absurd (ite_self 0) failed
      | _ => cases stepped
    | popping =>
      cases act with
      | take =>
        obtain ⟨rfl, rfl⟩ := reached stepped
        exact take_ok ring alone at_t
      | _ => cases stepped
    | peeking current counter buffer expected =>
      cases act with
      | peekNext =>
        obtain ⟨rfl, rfl, rfl⟩ := ring.peeking t current counter buffer expected at_t
        cases stepped
        have inv : Inv (s.goto t .idle) := inv_goto ring alone at_t rfl (Or.inl rfl)
        refine ⟨⟨?_, inv.counted, fun _ => ⟨rfl, rfl⟩⟩, inv⟩
        rintro r ⟨⟩
        rfl
      | _ => cases stepped
    | flushing store => exact absurd at_t (alone t store)
  · obtain rfl : t = u := fits.1 u store flushing.here
    obtain rfl : .flushing store = c := Option.some.inj (flushing.here.symm.trans at_t)
    cases act with
    | flushNext =>
      obtain ⟨rfl, rfl⟩ := reached stepped
      obtain ⟨inv, none' | ⟨flushed, empty⟩⟩ := flushing.next
      · refine quiet_step inv rfl ?_
        intro r eq
        exact absurd (none'.symm.trans eq) (by simp)
      · refine quiet_step inv rfl ?_
        intro r eq
        obtain rfl := Option.some.inj (flushed.symm.trans eq)
        exact empty
    | _ => cases stepped

theorem run_queued_from {s : State} (inv : Inv s) (ops : List (ℕ × Action))
    (fits : StepsFit s ops) : RunOk s ops := by
  induction ops generalizing s with
  | nil => trivial
  | cons op ops ih =>
    intro s' reply stepped
    obtain ⟨ok, inv'⟩ := step_ok inv fits.1 stepped
    exact ⟨ok, ih inv' (fits.2 s' reply stepped)⟩

theorem inv_init (flVioConsole : Bool) (threads : ℕ) : Inv (init flVioConsole threads) := by
  have idle : ∀ (t : ℕ) c, (init flVioConsole threads).calls[t]? = some c → c = .idle := by
    intro t c eq
    exact List.eq_of_mem_replicate (List.mem_of_getElem? eq)
  refine Or.inl ⟨⟨Nat.zero_lt_succ _, Nat.zero_le _, rfl, rfl, ?_, ?_, ?_, ?_⟩, ?_⟩
  · intro j entry eq
    cases eq
  · intro j _ _
    rfl
  · intro t slot record eq
    cases idle t _ eq
  · intro t current counter buffer expected eq
    cases idle t _ eq
  · intro t store eq
    cases idle t _ eq

/-- In every run of any number of threads whose steps fit, the ring is a queue. -/
theorem run_queued (flVioConsole : Bool) (threads : ℕ) (ops : List (ℕ × Action))
    (fits : StepsFit (init flVioConsole threads) ops) : RunOk (init flVioConsole threads) ops :=
  run_queued_from (inv_init flVioConsole threads) ops fits

/-- Two threads push, and one pops. -/
theorem run_queued_pushPop :
    RunOk (init false 2) [(0, .push ⟨1, [7]⟩), (1, .push ⟨2, [8]⟩), (1, .fill 0), (0, .fill 0),
      (0, .pop), (0, .take)] := by
  apply run_queued
  refine ⟨⟨?_, by decide, fun full => absurd full (by decide)⟩, ?_⟩
  · rintro (_ | _ | t) store ⟨⟩
  rintro s₁ r₁ ⟨⟩
  refine ⟨⟨?_, by decide, fun full => absurd full (by decide)⟩, ?_⟩
  · rintro (_ | _ | t) store ⟨⟩
  rintro s₂ r₂ ⟨⟩
  refine ⟨⟨?_, Or.inr rfl⟩, ?_⟩
  · rintro (_ | _ | t) store ⟨⟩
  rintro s₃ r₃ ⟨⟩
  refine ⟨⟨?_, Or.inr rfl⟩, ?_⟩
  · rintro (_ | _ | t) store ⟨⟩
  rintro s₄ r₄ ⟨⟩
  refine ⟨⟨?_, trivial⟩, ?_⟩
  · rintro (_ | _ | t) store ⟨⟩
  rintro s₅ r₅ ⟨⟩
  refine ⟨⟨?_, trivial⟩, fun _ _ _ => trivial⟩
  rintro (_ | _ | t) store ⟨⟩

/-- A peek writes the caller's buffer over the record that is queued. -/
theorem peek_not_queued : ¬ ∀ (flVioConsole : Bool) (threads : ℕ) (ops : List (ℕ × Action)),
    RunOk (init flVioConsole threads) ops := by
  intro all
  have run := all false 1 [(0, .push ⟨1, [7]⟩), (0, .fill 0), (0, .peek [⟨2, [9]⟩]), (0, .peekNext)]
  have peek := (((run _ _ rfl).2 _ _ rfl).2 _ _ rfl).2 _ _ rfl
  have same := congrFun (peek.1.peek rfl).1 0
  cases same

end Odin32.ConsoleInput
