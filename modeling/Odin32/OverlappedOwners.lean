import Odin32.OverlappedLists

/-! # Who has a request

Every request that is not deleted is at one place: a call has it, or it is on the list of a
worker, or a worker works on it. The list of busy requests shares them with the workers, and
so does a `CancelIo` that took one off that list: it writes to a request that is not its own.
Where the worker is not faster than these two writes, no request is used after its deletion. -/

set_option autoImplicit false

namespace Odin32.Overlapped

open LinkedList

inductive Place where
  | client (t : ℕ)
  | queue (i : Index)
  | worker (w : Index)

/-- The request a call is the only one to have. -/
def Call.owns : Call → Option Ref
  | .resetting _ a _ => some a
  | .polling a _ => some a
  | .signalling a _ _ => some a
  | .deleting a _ => some a
  | .adding _ a _ => some a
  | .marking _ i a => if i = .busy then none else some a
  | .aborting _ i a => if i = .busy then none else some a
  | .settingCancel _ i a => if i = .busy then none else some a
  | .freeing _ _ a => some a
  | _ => none

/-- The request of a worker that a `CancelIo` is still to write to. -/
def Call.borrows : Call → Option Ref
  | .marking _ .busy a => some a
  | .aborting _ .busy a => some a
  | _ => none

/-- The request that is to go on a list. -/
def Call.submits : Call → Option Ref
  | .resetting _ a _ => some a
  | .polling a _ => some a
  | .adding _ a _ => some a
  | _ => none

def Worker.holds : Worker → Option Ref
  | .taken a => some a
  | .handling a _ _ => some a
  | .polling a _ => some a
  | .pollWaiting a _ _ => some a
  | .returned a _ _ => some a
  | .storing a _ _ => some a
  | .signalling a _ => some a
  | .removing a => some a
  | .deleting a => some a
  | _ => none

structure ListsOk (heap : Heap) (pending : Index → Option Ref) (queue : Index → List Ref)
    (place : Ref → Option Place) : Prop where
  chain : ∀ i, Chain AsyncIoRequest.next heap (pending i) (queue i)
  nodup : ∀ i, (queue i).Nodup
  queued : ∀ i a, place a = some (.queue i) ↔ i ≠ .busy ∧ a ∈ queue i
  busy : ∀ a ∈ queue .busy, ∃ w, place a = some (.worker w)

structure OwnersOk (calls : List Call) (worker : Index → Worker) (busy : List Ref)
    (place : Ref → Option Place) : Prop where
  owned : ∀ t a, place a = some (.client t) ↔ ∃ c, calls[t]? = some c ∧ c.owns = some a
  held : ∀ w a, place a = some (.worker w) ↔ (worker w).holds = some a
  borrowed : ∀ c ∈ calls, ∀ a, c.borrows = some a → a ∉ busy ∧ ∃ w, place a = some (.worker w)
  removed : ∀ w a, worker w = .deleting a → a ∉ busy

structure HeapOk (heap : Heap) (allocated : ℕ) (deletions : List Ref)
    (place : Ref → Option Place) : Prop where
  live : ∀ a, place a = none ↔ heap a = none
  frontier : ∀ a, allocated ≤ a → heap a = none ∧ a ∉ deletions
  deleted : ∀ a, a < allocated → (heap a = none ↔ a ∈ deletions)
  once : deletions.Nodup

/-- A list lost only what was served or cancelled, and gives in the order it was given. -/
structure LogsOk (added served queue : Index → List Ref) (cancelled : List Ref) : Prop where
  order : ∀ i, i ≠ .busy → (served i ++ queue i).Sublist (added i)
  all : ∀ i, i ≠ .busy → ∀ a ∈ added i, a ∈ served i ∨ a ∈ queue i ∨ a ∈ cancelled

structure Inv (s : State) (queue : Index → List Ref) (place : Ref → Option Place) : Prop where
  lists : ListsOk s.heap s.pending queue place
  owners : OwnersOk s.calls s.worker (queue .busy) place
  heap : HeapOk s.heap s.allocated s.deletions place
  fresh : ∀ c ∈ s.calls, ∀ a, c.submits = some a → ∃ r, s.heap a = some r ∧ r.next = none
  logs : LogsOk s.added s.served queue s.cancelled
  safe : s.usedDeleted = false

theorem inv_init (device : Device) (threads : ℕ) (overlapped : Addr → OverlappedIo) :
    Inv (init device threads overlapped) (fun _ => []) fun _ => none := by
  have idle : ∀ c ∈ (init device threads overlapped).calls, c = .idle :=
    fun c mem => List.eq_of_mem_replicate mem
  constructor
  case lists => exact ⟨fun _ => rfl, fun _ => List.nodup_nil, by simp, by simp⟩
  case owners =>
    refine ⟨?_, ?_, ?_, fun _ _ _ => List.not_mem_nil⟩
    · intro t a
      constructor
      · intro eq
        cases eq
      · rintro ⟨c, at_t, owns⟩
        rw [idle c (List.mem_of_getElem? at_t)] at owns
        cases owns
    · intro w a
      constructor
      · intro eq
        cases eq
      · intro holds
        cases w <;> simp only [init, Device.workers] at holds <;> try split at holds
        all_goals cases holds
    · intro c mem a borrows
      rw [idle c mem] at borrows
      cases borrows
  case heap => exact ⟨fun _ => ⟨fun _ => rfl, fun _ => rfl⟩, fun _ _ => ⟨rfl, List.not_mem_nil⟩,
    fun a lt => absurd lt (Nat.not_lt_zero a), List.nodup_nil⟩
  case fresh =>
    intro c mem a submits
    rw [idle c mem] at submits
    cases submits
  case logs => exact ⟨fun _ _ => List.Sublist.slnil, fun _ _ a mem => absurd mem List.not_mem_nil⟩
  case safe => rfl

/-! ## What the places say -/

section Places

variable {s : State} {queue : Index → List Ref} {place : Ref → Option Place}

theorem HeapOk.exists_live {heap : Heap} {allocated : ℕ} {deletions : List Ref}
    (ok : HeapOk heap allocated deletions place) {a : Ref} {p : Place} (at_a : place a = some p) :
    ∃ r, heap a = some r := by
  cases here : heap a with
  | some r => exact ⟨r, rfl⟩
  | none =>
    have eq := (ok.live a).mpr here
    rw [at_a] at eq
    cases eq

theorem HeapOk.lt_allocated {heap : Heap} {allocated : ℕ} {deletions : List Ref}
    (ok : HeapOk heap allocated deletions place) {a : Ref} {r : AsyncIoRequest}
    (live : heap a = some r) : a < allocated := by
  by_contra beyond
  have dead := (ok.frontier a (Nat.le_of_not_lt beyond)).1
  rw [dead] at live
  cases live

theorem Inv.queue_lt (inv : Inv s queue place) (i : Index) :
    ∀ a ∈ queue i, a < s.allocated := by
  intro a mem
  obtain ⟨r, live⟩ := (inv.lists.chain i).live mem
  exact inv.heap.lt_allocated live

theorem Inv.owns_place (inv : Inv s queue place) {t : ℕ} {c : Call} {a : Ref}
    (at_t : s.calls[t]? = some c) (owns : c.owns = some a) : place a = some (.client t) :=
  (inv.owners.owned t a).mpr ⟨c, at_t, owns⟩

theorem Inv.owns_live (inv : Inv s queue place) {t : ℕ} {c : Call} {a : Ref}
    (at_t : s.calls[t]? = some c) (owns : c.owns = some a) : ∃ r, s.heap a = some r :=
  inv.heap.exists_live (inv.owns_place at_t owns)

theorem Inv.holds_place (inv : Inv s queue place) {w : Index} {a : Ref}
    (holds : (s.worker w).holds = some a) : place a = some (.worker w) :=
  (inv.owners.held w a).mpr holds

theorem Inv.holds_live (inv : Inv s queue place) {w : Index} {a : Ref}
    (holds : (s.worker w).holds = some a) : ∃ r, s.heap a = some r :=
  inv.heap.exists_live (inv.holds_place holds)

theorem Inv.borrows_live (inv : Inv s queue place) {c : Call} {a : Ref} (mem : c ∈ s.calls)
    (borrows : c.borrows = some a) : ∃ r, s.heap a = some r := by
  obtain ⟨-, w, at_w⟩ := inv.owners.borrowed c mem a borrows
  exact inv.heap.exists_live at_w

theorem ListsOk.not_client {heap : Heap} {pending : Index → Option Ref}
    (ok : ListsOk heap pending queue place) {i : Index} {a : Ref} (mem : a ∈ queue i) (t : ℕ) :
    place a ≠ some (.client t) := by
  intro at_t
  by_cases busy : i = .busy
  · subst busy
    obtain ⟨w, at_w⟩ := ok.busy a mem
    rw [at_w] at at_t
    cases at_t
  · rw [(ok.queued i a).mpr ⟨busy, mem⟩] at at_t
    cases at_t

theorem ListsOk.disjoint {heap : Heap} {pending : Index → Option Ref}
    (ok : ListsOk heap pending queue place) {i j : Index} {a : Ref} (mem : a ∈ queue i)
    (mem' : a ∈ queue j) : i = j := by
  by_cases busy : i = .busy
  · by_cases busy' : j = .busy
    · rw [busy, busy']
    · subst busy
      obtain ⟨w, at_w⟩ := ok.busy a mem
      rw [(ok.queued j a).mpr ⟨busy', mem'⟩] at at_w
      cases at_w
  · have at_i := (ok.queued i a).mpr ⟨busy, mem⟩
    by_cases busy' : j = .busy
    · subst busy'
      obtain ⟨w, at_w⟩ := ok.busy a mem'
      rw [at_i] at at_w
      cases at_w
    · rw [(ok.queued j a).mpr ⟨busy', mem'⟩] at at_i
      cases at_i
      rfl

end Places

/-! ## Steps of a client and of a worker that change who has what -/

section Moves

variable {calls : List Call} {worker : Index → Worker} {busy busy' : List Ref}
  {place place' : Ref → Option Place}

theorem OwnersOk.set_call (ok : OwnersOk calls worker busy place) {t : ℕ} {c c' : Call}
    (at_t : calls[t]? = some c)
    (mine : ∀ b, place' b = some (.client t) ↔ c'.owns = some b)
    (others : ∀ b t', t' ≠ t → (place' b = some (.client t') ↔ place b = some (.client t')))
    (workers : ∀ b w, place' b = some (.worker w) ↔ place b = some (.worker w))
    (borrowed : ∀ b, c'.borrows = some b → b ∉ busy' ∧ ∃ w, place b = some (.worker w))
    (sub : ∀ b ∈ busy', b ∈ busy) : OwnersOk (calls.set t c') worker busy' place' := by
  have lt : t < calls.length := (List.getElem?_eq_some_iff.mp at_t).1
  constructor
  case owned =>
    intro t' b
    by_cases same : t' = t
    · subst same
      rw [mine b]
      constructor
      · intro owns
        exact ⟨c', List.getElem?_set_self lt, owns⟩
      · rintro ⟨d, at_d, owns⟩
        rw [List.getElem?_set_self lt] at at_d
        cases at_d
        exact owns
    · rw [others b t' same, ok.owned t' b, List.getElem?_set_ne (Ne.symm same)]
  case held =>
    intro w b
    rw [workers b w]
    exact ok.held w b
  case borrowed =>
    intro d mem b borrows
    rcases List.mem_or_eq_of_mem_set mem with old | rfl
    · obtain ⟨off, w, at_w⟩ := ok.borrowed d old b borrows
      exact ⟨fun mem' => off (sub b mem'), w, (workers b w).mpr at_w⟩
    · obtain ⟨off, w, at_w⟩ := borrowed b borrows
      exact ⟨off, w, (workers b w).mpr at_w⟩
  case removed =>
    intro w b at_w mem'
    exact ok.removed w b at_w (sub b mem')

theorem OwnersOk.set_call_same (ok : OwnersOk calls worker busy place) {t : ℕ} {c c' : Call}
    (at_t : calls[t]? = some c) (owns : c'.owns = c.owns)
    (borrows : ∀ b, c'.borrows = some b → c.borrows = some b) :
    OwnersOk (calls.set t c') worker busy place := by
  refine ok.set_call at_t ?_ (fun _ _ _ => Iff.rfl) (fun _ _ => Iff.rfl) ?_ fun _ mem => mem
  · intro b
    rw [ok.owned t b, owns]
    constructor
    · rintro ⟨d, at_d, owns'⟩
      rw [at_t] at at_d
      cases at_d
      exact owns'
    · intro owns'
      exact ⟨c, at_t, owns'⟩
  · intro b borrows'
    exact ok.borrowed c (List.mem_of_getElem? at_t) b (borrows b borrows')

theorem OwnersOk.set_worker (ok : OwnersOk calls worker busy place) {w : Index} {p' : Worker}
    (mine : ∀ b, place' b = some (.worker w) ↔ p'.holds = some b)
    (others : ∀ b w', w' ≠ w → (place' b = some (.worker w') ↔ place b = some (.worker w')))
    (clients : ∀ b t, place' b = some (.client t) ↔ place b = some (.client t))
    (borrowed : ∀ c ∈ calls, ∀ b, c.borrows = some b →
      b ∉ busy' ∧ ∃ w', place' b = some (.worker w'))
    (removed : ∀ w' b, Function.update worker w p' w' = .deleting b → b ∉ busy') :
    OwnersOk calls (Function.update worker w p') busy' place' := by
  refine ⟨fun t b => ?_, fun w' b => ?_, borrowed, removed⟩
  · rw [clients b t]
    exact ok.owned t b
  · by_cases same : w' = w
    · subst same
      rw [Function.update_self]
      exact mine b
    · rw [Function.update_of_ne same, others b w' same]
      exact ok.held w' b

theorem removed_update {w : Index} {p' : Worker}
    (old : ∀ w' b, worker w' = .deleting b → b ∉ busy)
    (new : ∀ b, p' = .deleting b → b ∉ busy) :
    ∀ w' b, Function.update worker w p' w' = .deleting b → b ∉ busy := by
  intro w' b eq
  by_cases same : w' = w
  · subst same
    rw [Function.update_self] at eq
    exact new b eq
  · rw [Function.update_of_ne same] at eq
    exact old w' b eq

theorem OwnersOk.set_worker_same (ok : OwnersOk calls worker busy place) {w : Index} {p' : Worker}
    (holds : p'.holds = (worker w).holds) (removed : ∀ b, p' = .deleting b → b ∉ busy) :
    OwnersOk calls (Function.update worker w p') busy place := by
  refine ok.set_worker ?_ (fun _ _ _ => Iff.rfl) (fun _ _ => Iff.rfl) ok.borrowed
    (removed_update ok.removed removed)
  intro b
  rw [holds]
  exact ok.held w b

end Moves

/-! ## Requests made, moved and deleted -/

section Requests

variable {heap heap' : Heap} {pending pending' : Index → Option Ref}
  {queue : Index → List Ref} {place place' : Ref → Option Place} {allocated : ℕ}
  {deletions : List Ref}

theorem HeapOk.keep (ok : HeapOk heap allocated deletions place)
    (same : ∀ a, heap' a = none ↔ heap a = none) (places : ∀ a, place' a = none ↔ place a = none) :
    HeapOk heap' allocated deletions place' := by
  refine ⟨?_, ?_, ?_, ok.once⟩
  · intro a
    rw [places a, same a]
    exact ok.live a
  · intro a beyond
    obtain ⟨dead, off⟩ := ok.frontier a beyond
    exact ⟨(same a).mpr dead, off⟩
  · intro a lt
    rw [same a]
    exact ok.deleted a lt

theorem HeapOk.allocate (ok : HeapOk heap allocated deletions place) (r : AsyncIoRequest)
    (p : Place) : HeapOk (Function.update heap allocated (some r)) (allocated + 1) deletions
      (Function.update place allocated (some p)) := by
  refine ⟨?_, ?_, ?_, ok.once⟩
  · intro a
    by_cases here : a = allocated
    · subst here
      rw [Function.update_self, Function.update_self]
      simp
    · rw [Function.update_of_ne here, Function.update_of_ne here]
      exact ok.live a
  · intro a beyond
    have ne : a ≠ allocated := Nat.ne_of_gt beyond
    rw [Function.update_of_ne ne]
    exact ok.frontier a (Nat.le_of_lt beyond)
  · intro a lt
    by_cases here : a = allocated
    · subst here
      rw [Function.update_self]
      have off := (ok.frontier a (Nat.le_refl a)).2
      simp [off]
    · rw [Function.update_of_ne here]
      exact ok.deleted a (Nat.lt_of_le_of_ne (Nat.le_of_lt_succ lt) here)

theorem HeapOk.delete (ok : HeapOk heap allocated deletions place) {a : Ref}
    {r : AsyncIoRequest} (live : heap a = some r) : HeapOk (Function.update heap a none) allocated
      (deletions ++ [a]) (Function.update place a none) := by
  have lt : a < allocated := ok.lt_allocated live
  have notYet : a ∉ deletions := by
    intro mem
    have dead := (ok.deleted a lt).mpr mem
    rw [dead] at live
    cases live
  refine ⟨?_, ?_, ?_, ?_⟩
  · intro b
    by_cases here : b = a
    · subst here
      rw [Function.update_self, Function.update_self]
      exact ⟨fun _ => rfl, fun _ => rfl⟩
    · rw [Function.update_of_ne here, Function.update_of_ne here]
      exact ok.live b
  · intro b beyond
    have ne : b ≠ a := by
      rintro rfl
      exact absurd lt (Nat.not_lt_of_le beyond)
    obtain ⟨dead, off⟩ := ok.frontier b beyond
    rw [Function.update_of_ne ne]
    refine ⟨dead, ?_⟩
    simp [off, ne]
  · intro b ltB
    by_cases here : b = a
    · subst here
      rw [Function.update_self]
      simp
    · rw [Function.update_of_ne here, ok.deleted b ltB]
      simp [here]
  · exact List.nodup_append.mpr ⟨ok.once, List.nodup_singleton a, by
      intro b mem c mem' same
      obtain rfl := List.mem_singleton.mp mem'
      exact notYet (same ▸ mem)⟩

theorem ListsOk.keep (ok : ListsOk heap pending queue place)
    (links : ∀ i, ∀ a ∈ queue i,
      (heap' a).map AsyncIoRequest.next = (heap a).map AsyncIoRequest.next)
    (places : ∀ i a, place' a = some (.queue i) ↔ place a = some (.queue i))
    (workers : ∀ a ∈ queue .busy, place' a = place a) : ListsOk heap' pending queue place' := by
  refine ⟨fun i => (ok.chain i).congr (links i), ok.nodup, ?_, ?_⟩
  · intro i a
    rw [places i a]
    exact ok.queued i a
  · intro a mem
    rw [workers a mem]
    exact ok.busy a mem

theorem ListsOk.unlink {s s' : State} (ok : ListsOk s.heap s.pending queue place) {i : Index}
    {a : Ref} {l₁ l₂ : List Ref} (split : queue i = l₁ ++ a :: l₂)
    (done : Unlinked s s' i a l₁ l₂) (away : ∀ j, place' a ≠ some (.queue j))
    (rest : ∀ b, b ≠ a → place' b = place b) :
    ListsOk s'.heap s'.pending (Function.update queue i (l₁ ++ l₂)) place' := by
  have nodup := ok.nodup i
  rw [split] at nodup
  have gone : a ∉ l₁ ++ l₂ := by
    have perm : (l₁ ++ a :: l₂).Perm (a :: (l₁ ++ l₂)) := List.perm_middle
    exact (List.nodup_cons.mp (perm.nodup_iff.mp nodup)).1
  have mem_a : a ∈ queue i := by
    rw [split]
    simp
  have notOn : ∀ j, a ∉ Function.update queue i (l₁ ++ l₂) j := by
    intro j
    by_cases same : j = i
    · subst same
      rw [Function.update_self]
      exact gone
    · rw [Function.update_of_ne same]
      intro mem
      exact same (ok.disjoint mem mem_a)
  have mem_iff : ∀ j b, b ≠ a → (b ∈ Function.update queue i (l₁ ++ l₂) j ↔ b ∈ queue j) := by
    intro j b ne
    by_cases same : j = i
    · subst same
      rw [Function.update_self, split]
      simp [ne]
    · rw [Function.update_of_ne same]
  constructor
  case chain =>
    intro j
    by_cases same : j = i
    · subst same
      rw [Function.update_self]
      exact done.chain
    · rw [Function.update_of_ne same, done.elsewhere j same]
      apply (ok.chain j).frame
      intro b mem
      apply done.others
      intro inL
      have mem' : b ∈ queue i := by
        rw [split]
        exact List.mem_append_left _ inL
      exact same (ok.disjoint mem mem')
  case nodup =>
    intro j
    by_cases same : j = i
    · subst same
      rw [Function.update_self]
      exact nodup.sublist ((List.Sublist.refl l₁).append (List.sublist_cons_self a l₂))
    · rw [Function.update_of_ne same]
      exact ok.nodup j
  case queued =>
    intro j b
    by_cases here : b = a
    · subst here
      exact ⟨fun at_b => absurd at_b (away j), fun mem => absurd mem.2 (notOn j)⟩
    · rw [rest b here, ok.queued j b, mem_iff j b here]
  case busy =>
    intro b mem
    have ne : b ≠ a := by
      rintro rfl
      exact notOn _ mem
    rw [rest b ne]
    exact ok.busy b ((mem_iff _ b ne).mp mem)

theorem ListsOk.link {s s' : State} (ok : ListsOk s.heap s.pending queue place) {i : Index}
    {a : Ref} {t : ℕ} (notBusy : i ≠ .busy) (at_a : place a = some (.client t))
    (done : Linked s s' i a (queue i)) :
    ListsOk s'.heap s'.pending (Function.update queue i (queue i ++ [a]))
      (Function.update place a (some (.queue i))) := by
  have off : ∀ j, a ∉ queue j := fun j mem => ok.not_client mem t at_a
  constructor
  case chain =>
    intro j
    by_cases same : j = i
    · subst same
      rw [Function.update_self]
      exact done.chain
    · rw [Function.update_of_ne same, done.elsewhere j same]
      apply (ok.chain j).frame
      intro b mem
      exact done.others b fun mem' => same (ok.disjoint mem mem')
  case nodup =>
    intro j
    by_cases same : j = i
    · subst same
      rw [Function.update_self]
      have perm : (queue j ++ [a]).Perm (a :: queue j) := List.perm_append_singleton a _
      exact perm.nodup_iff.mpr (List.nodup_cons.mpr ⟨off j, ok.nodup j⟩)
    · rw [Function.update_of_ne same]
      exact ok.nodup j
  case queued =>
    intro j b
    by_cases here : b = a
    · subst here
      rw [Function.update_self]
      by_cases same : j = i
      · subst same
        rw [Function.update_self]
        simp [notBusy]
      · rw [Function.update_of_ne same]
        refine ⟨fun eq => ?_, fun mem => absurd mem.2 (off j)⟩
        cases eq
        exact absurd rfl same
    · rw [Function.update_of_ne here, ok.queued j b]
      by_cases same : j = i
      · subst same
        rw [Function.update_self]
        simp [here]
      · rw [Function.update_of_ne same]
  case busy =>
    intro b mem
    rw [Function.update_of_ne (Ne.symm notBusy)] at mem
    have ne : b ≠ a := by
      rintro rfl
      exact off _ mem
    rw [Function.update_of_ne ne]
    exact ok.busy b mem

theorem ListsOk.serve (ok : ListsOk heap pending queue place) {w : Index} {a : Ref}
    {r : AsyncIoRequest} {rest : List Ref} (notBusy : w ≠ .busy) (split : queue w = a :: rest)
    (live : heap a = some r) :
    ListsOk (Function.update heap a (some { r with next := pending .busy }))
      (Function.update (Function.update pending w r.next) .busy (some a))
      (Function.update (Function.update queue w rest) .busy (a :: queue .busy))
      (Function.update place a (some (.worker w))) := by
  have mem_a : a ∈ queue w := by
    rw [split]
    exact List.mem_cons_self ..
  have off : ∀ j, j ≠ w → a ∉ queue j := fun j ne mem => ne (ok.disjoint mem mem_a)
  have nodup := ok.nodup w
  rw [split] at nodup
  have offRest : a ∉ rest := (List.nodup_cons.mp nodup).1
  constructor
  case chain =>
    intro j
    by_cases busy : j = .busy
    · subst busy
      rw [Function.update_self, Function.update_self]
      refine ⟨rfl, { r with next := pending .busy }, Function.update_self .., ?_⟩
      exact (ok.chain .busy).update_of_notMem (off _ (Ne.symm notBusy)) _
    · rw [Function.update_of_ne busy, Function.update_of_ne busy]
      by_cases same : j = w
      · subst same
        rw [Function.update_self, Function.update_self]
        have chain := ok.chain j
        rw [split] at chain
        exact (chain.pop live).update_of_notMem offRest _
      · rw [Function.update_of_ne same, Function.update_of_ne same]
        exact (ok.chain j).update_of_notMem (off j same) _
  case nodup =>
    intro j
    by_cases busy : j = .busy
    · subst busy
      rw [Function.update_self]
      exact List.nodup_cons.mpr ⟨off _ (Ne.symm notBusy), ok.nodup .busy⟩
    · rw [Function.update_of_ne busy]
      by_cases same : j = w
      · subst same
        rw [Function.update_self]
        exact (List.nodup_cons.mp nodup).2
      · rw [Function.update_of_ne same]
        exact ok.nodup j
  case queued =>
    intro j b
    by_cases busy : j = .busy
    · subst busy
      refine ⟨fun at_b => ?_, fun mem => absurd rfl mem.1⟩
      by_cases here : b = a
      · subst here
        rw [Function.update_self] at at_b
        cases at_b
      · rw [Function.update_of_ne here] at at_b
        exact absurd rfl ((ok.queued .busy b).mp at_b).1
    · rw [Function.update_of_ne busy]
      by_cases here : b = a
      · subst here
        rw [Function.update_self]
        refine ⟨fun at_b => (by cases at_b), fun mem => ?_⟩
        by_cases same : j = w
        · subst same
          rw [Function.update_self] at mem
          exact absurd mem.2 offRest
        · rw [Function.update_of_ne same] at mem
          exact absurd mem.2 (off j same)
      · rw [Function.update_of_ne here, ok.queued j b]
        by_cases same : j = w
        · subst same
          rw [Function.update_self, split]
          simp [here]
        · rw [Function.update_of_ne same]
  case busy =>
    intro b mem
    rw [Function.update_self] at mem
    by_cases here : b = a
    · subst here
      exact ⟨w, Function.update_self ..⟩
    · rw [Function.update_of_ne here]
      exact ok.busy b ((List.mem_cons.mp mem).resolve_left here)

section Logs

variable {added served : Index → List Ref} {cancelled : List Ref}

theorem LogsOk.add (ok : LogsOk added served queue cancelled) (i : Index) (a : Ref) :
    LogsOk (Function.update added i (added i ++ [a])) served
      (Function.update queue i (queue i ++ [a])) cancelled := by
  constructor
  · intro j notBusy
    by_cases same : j = i
    · subst same
      rw [Function.update_self, Function.update_self, ← List.append_assoc]
      exact (ok.order j notBusy).append (List.Sublist.refl [a])
    · rw [Function.update_of_ne same, Function.update_of_ne same]
      exact ok.order j notBusy
  · intro j notBusy b mem
    by_cases same : j = i
    · subst same
      rw [Function.update_self] at mem ⊢
      rcases List.mem_append.mp mem with old | new
      · rcases ok.all j notBusy b old with served | queued | cancelled
        · exact .inl served
        · exact .inr (.inl (List.mem_append_left _ queued))
        · exact .inr (.inr cancelled)
      · exact .inr (.inl (List.mem_append_right _ new))
    · rw [Function.update_of_ne same] at mem ⊢
      exact ok.all j notBusy b mem

theorem LogsOk.cancel (ok : LogsOk added served queue cancelled) {i : Index} {a : Ref}
    {l₁ l₂ : List Ref} (split : queue i = l₁ ++ a :: l₂) :
    LogsOk added served (Function.update queue i (l₁ ++ l₂)) (cancelled ++ [a]) := by
  constructor
  · intro j notBusy
    by_cases same : j = i
    · subst same
      have sub : (served j ++ (l₁ ++ l₂)).Sublist (served j ++ queue j) := by
        rw [split]
        exact (List.Sublist.refl _).append
          ((List.Sublist.refl l₁).append (List.sublist_cons_self a l₂))
      rw [Function.update_self]
      exact sub.trans (ok.order j notBusy)
    · rw [Function.update_of_ne same]
      exact ok.order j notBusy
  · intro j notBusy b mem
    rcases ok.all j notBusy b mem with served | queued | cancelled
    · exact .inl served
    · by_cases same : j = i
      · subst same
        rw [Function.update_self]
        rw [split] at queued
        by_cases here : b = a
        · subst here
          exact .inr (.inr (by simp))
        · exact .inr (.inl (by simpa [here] using queued))
      · rw [Function.update_of_ne same]
        exact .inr (.inl queued)
    · exact .inr (.inr (List.mem_append_left _ cancelled))

theorem LogsOk.busy (ok : LogsOk added served queue cancelled) (cells : List Ref) :
    LogsOk added served (Function.update queue .busy cells) cancelled := by
  constructor
  · intro j notBusy
    rw [Function.update_of_ne notBusy]
    exact ok.order j notBusy
  · intro j notBusy
    rw [Function.update_of_ne notBusy]
    exact ok.all j notBusy

theorem LogsOk.serve (ok : LogsOk added served queue cancelled) {w : Index} {a : Ref}
    {rest : List Ref} (split : queue w = a :: rest) :
    LogsOk added (Function.update served w (served w ++ [a])) (Function.update queue w rest)
      cancelled := by
  constructor
  · intro j notBusy
    by_cases same : j = w
    · subst same
      have order := ok.order j notBusy
      rw [split] at order
      rw [Function.update_self, Function.update_self, List.append_assoc]
      exact order
    · rw [Function.update_of_ne same, Function.update_of_ne same]
      exact ok.order j notBusy
  · intro j notBusy b mem
    by_cases same : j = w
    · subst same
      rw [Function.update_self, Function.update_self]
      rcases ok.all j notBusy b mem with served | queued | cancelled
      · exact .inl (List.mem_append_left _ served)
      · rw [split] at queued
        rcases List.mem_cons.mp queued with rfl | later
        · exact .inl (by simp)
        · exact .inr (.inl later)
      · exact .inr (.inr cancelled)
    · rw [Function.update_of_ne same, Function.update_of_ne same]
      exact ok.all j notBusy b mem

end Logs

end Requests

end Odin32.Overlapped
