import Odin32.Iocp
import Mathlib.Data.List.Count

/-! # Packets leave a port once and in order

A packet is counted by the semaphore of its port, or by the thread that is about to release
it, or by the thread the semaphore has let through. The sum of the three is the length of
the queue in every state. It breaks where `enqueue` has no memory for the packet: the
caller is told that the packet was queued. -/

set_option autoImplicit false

namespace Odin32.Iocp

open LinkedList

/-- The thread holds one unit of the port's queue that the semaphore does not show. -/
def Call.pending (p : Addr) : Call → Bool
  | .releasing q => q == p
  | .woken q => q == p
  | _ => false

def inFlight (calls : List Call) (p : Addr) : ℕ := calls.countP (Call.pending p)

theorem inFlight_set {calls : List Call} {t : ℕ} {c : Call} (at_t : calls[t]? = some c)
    (c' : Call) (p : Addr) :
    inFlight (calls.set t c') p + (c.pending p).toNat =
      inFlight calls p + (c'.pending p).toNat := by
  induction calls generalizing t with
  | nil => cases at_t
  | cons d calls ih =>
    unfold inFlight
    cases t with
    | zero =>
      obtain rfl : d = c := by simpa using at_t
      rw [List.set_cons_zero, List.countP_cons, List.countP_cons]
      cases d.pending p <;> cases c'.pending p <;> simp
    | succ t =>
      have rest := ih (t := t) (by simpa using at_t)
      unfold inFlight at rest
      rw [List.set_cons_succ, List.countP_cons, List.countP_cons]
      omega

/-- What the packets on a queue say. -/
def contents (heap : Addr → Option IocpPacket) (queue : List Addr) : List Packet :=
  queue.filterMap fun a => (heap a).map IocpPacket.toPacket

theorem contents_congr {heap heap' : Addr → Option IocpPacket} {queue : List Addr}
    (same : ∀ a ∈ queue, (heap' a).map IocpPacket.toPacket = (heap a).map IocpPacket.toPacket) :
    contents heap' queue = contents heap queue := by
  apply List.filterMap_congr
  exact same

/-- The port's list of packets, and what came in over what went out. -/
structure QueueOk (heap : Addr → Option IocpPacket) (entered handed : List Packet)
    (port : IocpPort) (queue : List Addr) : Prop where
  chain : Chain IocpPacket.next heap port.head queue
  tail : port.tail = queue.getLast?
  nodup : queue.Nodup
  fifo : entered = handed ++ contents heap queue

/-- No thread is between a semaphore and a queue. -/
def State.Quiescent (s : State) : Prop :=
  ∀ c ∈ s.calls, c = .idle ∨ ∃ p h, c = .waiting p h

/-- Every packet that was let in is handed out or queued, in order; the count is right once
the threads rest. -/
def State.Delivered (s : State) : Prop :=
  ∀ p port, s.portAt p = some port → ∃ queue,
    QueueOk s.heap (s.entered p) (s.handed p) port queue ∧
    (port.head = none ↔ port.tail = none) ∧
    (s.Quiescent → s.sem port.hSem = some queue.length)

/-- The pointers a thread holds. -/
def Call.Live (portAt : Addr → Option IocpPort) : Call → Prop
  | .releasing p => ∃ port, portAt p = some port
  | .woken p => ∃ port, portAt p = some port
  | .waiting p h => ∃ port, portAt p = some port ∧ port.hSem = h
  | _ => True

structure Inv (s : State) (queue : Addr → List Addr) : Prop where
  queues : ∀ p port, s.portAt p = some port →
    QueueOk s.heap (s.entered p) (s.handed p) port (queue p)
  counted : ∀ p port, s.portAt p = some port →
    ∃ n, s.sem port.hSem = some n ∧ n + inFlight s.calls p = (queue p).length
  fresh : ∀ p, s.portAt p = none → s.entered p = [] ∧ s.handed p = [] ∧ queue p = []
  apart : ∀ p p' port port', s.portAt p = some port → s.portAt p' = some port' →
    port.hSem = port'.hSem → p = p'
  disjoint : ∀ p p' a, a ∈ queue p → a ∈ queue p' → p = p'
  assocs : ∀ a ∈ s.assocs, ∃ port, s.portAt a.port = some port
  calls : ∀ c ∈ s.calls, c.Live s.portAt

theorem inv_init (threads : ℕ) : Inv (init threads) fun _ => [] := by
  refine ⟨?_, ?_, fun _ _ => ⟨rfl, rfl, rfl⟩, ?_, ?_, ?_, ?_⟩
  · intro p port eq
    cases eq
  · intro p port eq
    cases eq
  · intro p p' port port' eq
    cases eq
  · intro p p' a mem
    cases mem
  · intro a mem
    cases mem
  · intro c mem
    rw [List.eq_of_mem_replicate mem]
    trivial

theorem inFlight_quiescent {s : State} (quiescent : s.Quiescent) (p : Addr) :
    inFlight s.calls p = 0 := by
  apply List.countP_eq_zero.mpr
  intro c mem
  rcases quiescent c mem with rfl | ⟨q, h, rfl⟩ <;> exact Bool.false_ne_true

theorem Inv.delivered {s : State} {queue : Addr → List Addr} (inv : Inv s queue) :
    s.Delivered := by
  intro p port eq
  have ok := inv.queues p port eq
  refine ⟨queue p, ok, ?_, ?_⟩
  · rw [ok.chain.head_eq, ok.tail]
    cases queue p <;> simp
  · intro quiescent
    obtain ⟨n, sem, sum⟩ := inv.counted p port eq
    rw [inFlight_quiescent quiescent] at sum
    rw [sem, ← sum]
    rfl

/-! ## What a step keeps -/

section Steps

variable {s : State} {queue : Addr → List Addr} {t : ℕ} {c : Call}

theorem live_set {portAt : Addr → Option IocpPort} {calls : List Call} {c' : Call}
    (live : ∀ d ∈ calls, d.Live portAt) (live' : c'.Live portAt) :
    ∀ d ∈ calls.set t c', d.Live portAt := by
  intro d mem
  rcases List.mem_or_eq_of_mem_set mem with old | rfl
  · exact live d old
  · exact live'

theorem Inv.goto (inv : Inv s queue) (at_t : s.calls[t]? = some c) {c' : Call}
    (quiet : ∀ p, c.pending p = c'.pending p) (live : c'.Live s.portAt) :
    Inv (s.goto t c') queue := by
  refine ⟨inv.queues, ?_, inv.fresh, inv.apart, inv.disjoint, inv.assocs,
    live_set inv.calls live⟩
  intro p port eq
  obtain ⟨n, sem, sum⟩ := inv.counted p port eq
  have same := inFlight_set at_t c' p
  rw [quiet p] at same
  refine ⟨n, sem, ?_⟩
  change n + inFlight (s.calls.set t c') p = _
  omega

theorem Inv.reply (inv : Inv s queue) (at_t : s.calls[t]? = some c)
    (quiet : ∀ p, c.pending p = false) (r : Reply) : Inv (s.reply t r) queue := by
  have moved : Inv (s.goto t .idle) queue := inv.goto at_t quiet trivial
  exact ⟨moved.queues, moved.counted, moved.fresh, moved.apart, moved.disjoint, moved.assocs,
    moved.calls⟩

theorem Inv.withPort (inv : Inv s queue) (at_t : s.calls[t]? = some c)
    (quiet : ∀ p, c.pending p = false) (existing fileHandle : Handle) (key : ℕ) :
    Inv (s.withPort t existing fileHandle key) queue := by
  unfold State.withPort
  split
  · exact inv.goto at_t quiet trivial
  · exact inv.reply at_t quiet _

theorem findPort_some {h : Handle} {p : Addr} (found : s.findPort h = some p) :
    ∃ port, s.portAt p = some port ∧ port.hSem = h := by
  have holds := List.find?_some found
  cases eq : s.portAt p with
  | none => simp [eq] at holds
  | some port => exact ⟨port, rfl, by simpa [eq] using holds⟩

theorem Inv.associate (inv : Inv s queue) (at_t : s.calls[t]? = some c)
    (quiet : ∀ p, c.pending p = false) (existing fileHandle : Handle) (key : ℕ) (mem : Bool) :
    Inv (s.associate t existing fileHandle key mem) queue := by
  unfold State.associate
  split
  · exact inv.reply at_t quiet _
  · rename_i p found
    split
    · exact inv.reply at_t quiet _
    · split
      · have inv' : Inv { s with assocs := ⟨fileHandle, p, key⟩ :: s.assocs } queue := by
          refine ⟨inv.queues, inv.counted, inv.fresh, inv.apart, inv.disjoint, ?_, inv.calls⟩
          intro a member
          rcases List.mem_cons.mp member with rfl | old
          · obtain ⟨port, eq, -⟩ := findPort_some found
            exact ⟨port, eq⟩
          · exact inv.assocs a old
        exact inv'.reply at_t quiet _
      · exact inv.reply at_t quiet _

/-- Ports stay where they are and keep their semaphores. -/
def Keeps (portAt portAt' : Addr → Option IocpPort) : Prop :=
  ∀ p port, portAt p = some port → ∃ port', portAt' p = some port' ∧ port'.hSem = port.hSem

theorem Call.Live.keep {portAt portAt' : Addr → Option IocpPort} {d : Call}
    (live : d.Live portAt) (keeps : Keeps portAt portAt') : d.Live portAt' := by
  cases d with
  | releasing q =>
    obtain ⟨port, eq⟩ := live
    obtain ⟨port', eq', -⟩ := keeps q port eq
    exact ⟨port', eq'⟩
  | woken q =>
    obtain ⟨port, eq⟩ := live
    obtain ⟨port', eq', -⟩ := keeps q port eq
    exact ⟨port', eq'⟩
  | waiting q h =>
    obtain ⟨port, eq, hSem⟩ := live
    obtain ⟨port', eq', hSem'⟩ := keeps q port eq
    exact ⟨port', eq', hSem'.trans hSem⟩
  | _ => trivial

theorem inFlight_dead {calls : List Call} {portAt : Addr → Option IocpPort} {p : Addr}
    (live : ∀ d ∈ calls, d.Live portAt) (dead : portAt p = none) : inFlight calls p = 0 := by
  apply List.countP_eq_zero.mpr
  intro d mem pending
  have pointer := live d mem
  cases d with
  | releasing q =>
    obtain ⟨port, eq⟩ := pointer
    obtain rfl : q = p := by simpa [Call.pending] using pending
    exact absurd (dead.symm.trans eq) (by simp)
  | woken q =>
    obtain ⟨port, eq⟩ := pointer
    obtain rfl : q = p := by simpa [Call.pending] using pending
    exact absurd (dead.symm.trans eq) (by simp)
  | _ => cases pending

theorem Inv.change (inv : Inv s queue) {s' : State} {queue' : Addr → List Addr} {p : Addr}
    {port port' : IocpPort} (eq : s.portAt p = some port)
    (eq' : s'.portAt p = some port') (hSem : port'.hSem = port.hSem)
    (ports : ∀ q ≠ p, s'.portAt q = s.portAt q)
    (logs : ∀ q ≠ p, s'.entered q = s.entered q ∧ s'.handed q = s.handed q)
    (others : ∀ q ≠ p, queue' q = queue q)
    (heap : ∀ q ≠ p, ∀ a ∈ queue q, s'.heap a = s.heap a)
    (sems : ∀ h ≠ port.hSem, s'.sem h = s.sem h)
    (flights : ∀ q ≠ p, inFlight s'.calls q = inFlight s.calls q)
    (ok : QueueOk s'.heap (s'.entered p) (s'.handed p) port' (queue' p))
    (counted : ∃ n, s'.sem port.hSem = some n ∧ n + inFlight s'.calls p = (queue' p).length)
    (apart : ∀ q ≠ p, ∀ a ∈ queue' p, a ∉ queue q)
    (assocs : s'.assocs = s.assocs) (calls : ∀ d ∈ s'.calls, d.Live s.portAt) :
    Inv s' queue' := by
  have back : ∀ q port₁, s'.portAt q = some port₁ →
      ∃ port₀, s.portAt q = some port₀ ∧ port₁.hSem = port₀.hSem := by
    intro q port₁ eq₁
    by_cases here : q = p
    · subst here
      obtain rfl : port' = port₁ := Option.some.inj (eq'.symm.trans eq₁)
      exact ⟨port, eq, hSem⟩
    · exact ⟨port₁, (ports q here).symm.trans eq₁, rfl⟩
  have keeps : Keeps s.portAt s'.portAt := by
    intro q port₀ eq₀
    by_cases here : q = p
    · subst here
      obtain rfl : port = port₀ := Option.some.inj (eq.symm.trans eq₀)
      exact ⟨port', eq', hSem⟩
    · exact ⟨port₀, (ports q here).trans eq₀, rfl⟩
  constructor
  case queues =>
    intro q port₁ eq₁
    by_cases here : q = p
    · subst here
      obtain rfl : port' = port₁ := Option.some.inj (eq'.symm.trans eq₁)
      exact ok
    · have old := inv.queues q port₁ ((ports q here).symm.trans eq₁)
      rw [others q here, (logs q here).1, (logs q here).2]
      refine ⟨old.chain.frame (heap q here), old.tail, old.nodup, ?_⟩
      rw [contents_congr fun a mem => by rw [heap q here a mem]]
      exact old.fifo
  case counted =>
    intro q port₁ eq₁
    by_cases here : q = p
    · subst here
      obtain rfl : port' = port₁ := Option.some.inj (eq'.symm.trans eq₁)
      rw [hSem]
      exact counted
    · have eq₀ := (ports q here).symm.trans eq₁
      have other : port₁.hSem ≠ port.hSem := fun same => here (inv.apart q p _ _ eq₀ eq same)
      rw [sems _ other, flights q here, others q here]
      exact inv.counted q port₁ eq₀
  case fresh =>
    intro q dead
    have here : q ≠ p := by
      rintro rfl
      exact absurd (dead.symm.trans eq') (by simp)
    rw [(logs q here).1, (logs q here).2, others q here]
    exact inv.fresh q ((ports q here).symm.trans dead)
  case apart =>
    intro q q' port₁ port₂ eq₁ eq₂ same
    obtain ⟨port₃, eq₃, hSem₃⟩ := back q port₁ eq₁
    obtain ⟨port₄, eq₄, hSem₄⟩ := back q' port₂ eq₂
    exact inv.apart q q' port₃ port₄ eq₃ eq₄ (hSem₃.symm.trans (same.trans hSem₄))
  case disjoint =>
    intro q q' a mem mem'
    by_cases here : q = p
    · by_cases here' : q' = p
      · exact here.trans here'.symm
      · rw [others q' here'] at mem'
        exact absurd mem' (apart q' here' a (here ▸ mem))
    · rw [others q here] at mem
      by_cases here' : q' = p
      · exact absurd mem (apart q here a (here' ▸ mem'))
      · rw [others q' here'] at mem'
        exact inv.disjoint q q' a mem mem'
  case assocs =>
    intro a mem
    rw [assocs] at mem
    obtain ⟨port₀, eq₀⟩ := inv.assocs a mem
    obtain ⟨port₁, eq₁, -⟩ := keeps a.port port₀ eq₀
    exact ⟨port₁, eq₁⟩
  case calls =>
    intro d mem
    exact (calls d mem).keep keeps

theorem link_spec {p a : Addr} {port : IocpPort} {cells : List Addr} {entered handed : List Packet}
    (pkt : Packet) (ok : QueueOk s.heap entered handed port cells) (free : s.heap a = none) :
    ∃ port', (s.link p port pkt a).portAt = Function.update s.portAt p (some port') ∧
      port'.hSem = port.hSem ∧
      QueueOk (s.link p port pkt a).heap (entered ++ [pkt]) handed port' (cells ++ [a]) ∧
      ∀ b, b ≠ a → b ∉ cells → (s.link p port pkt a).heap b = s.heap b := by
  have off : a ∉ cells := by
    intro mem
    obtain ⟨cell, here⟩ := ok.chain.live mem
    exact absurd (free.symm.trans here) (by simp)
  have nodup : (cells ++ [a]).Nodup := by
    rw [List.nodup_append]
    refine ⟨ok.nodup, List.nodup_singleton a, ?_⟩
    intro b mem b' mem' same
    obtain rfl := List.mem_singleton.mp mem'
    exact off (same ▸ mem)
  unfold State.link
  cases tail : port.tail with
  | none =>
    have empty : cells = [] := by
      have := ok.tail
      rw [tail] at this
      exact List.getLast?_eq_none_iff.mp this.symm
    subst empty
    refine ⟨_, rfl, rfl, ⟨⟨rfl, _, Function.update_self .., rfl⟩, rfl, nodup, ?_⟩, ?_⟩
    · rw [ok.fifo]
      simp [contents]
    · intro b ne _
      exact Function.update_of_ne ne ..
  | some last =>
    have isLast : cells.getLast? = some last := ok.tail.symm.trans tail
    have lastMem : last ∈ cells := List.mem_of_getLast? isLast
    have ne : last ≠ a := fun same => off (same ▸ lastMem)
    obtain ⟨cell, here⟩ := ok.chain.live lastMem
    have same : Function.update s.heap a (some { pkt with next := none }) last = some cell := by
      rw [Function.update_of_ne ne, here]
    refine ⟨_, rfl, rfl, ⟨?_, ?_, nodup, ?_⟩, ?_⟩
    · simp only [same]
      exact ok.chain.snoc ok.nodup off isLast rfl rfl
    · simp
    · simp only [same, Option.map_some]
      have kept : contents (Function.update (Function.update s.heap a
          (some { pkt with next := none })) last (some { cell with next := some a })) cells =
          contents s.heap cells := by
        apply contents_congr
        intro b mem
        have ne' : b ≠ a := fun same => off (same ▸ mem)
        by_cases atLast : b = last
        · rw [atLast, Function.update_self, here]
          rfl
        · rw [Function.update_of_ne atLast, Function.update_of_ne ne']
      have added : contents (Function.update (Function.update s.heap a
          (some { pkt with next := none })) last (some { cell with next := some a })) [a] =
          [pkt] := by
        unfold contents
        simp [Function.update_of_ne ne.symm]
      unfold contents at kept added ⊢
      rw [List.filterMap_append, kept, added, ← List.append_assoc]
      exact congrArg (· ++ [pkt]) ok.fifo
    · intro b ne' notMem
      have ne'' : b ≠ last := fun same => notMem (same ▸ lastMem)
      simp only [Option.map]
      rw [Function.update_of_ne ne'', Function.update_of_ne ne']

theorem link_rest (p : Addr) (port : IocpPort) (pkt : Packet) (a : Addr) :
    (s.link p port pkt a).sem = s.sem ∧ (s.link p port pkt a).calls = s.calls ∧
    (s.link p port pkt a).assocs = s.assocs ∧ (s.link p port pkt a).entered = s.entered ∧
    (s.link p port pkt a).handed = s.handed := by
  unfold State.link
  cases port.tail <;> exact ⟨rfl, rfl, rfl, rfl, rfl⟩

theorem pending_ne {p q : Addr} (ne : q ≠ p) :
    Call.pending q (.releasing p) = false ∧ Call.pending q (.woken p) = false := by
  have apart : (p == q) = false := by simpa using fun same : p = q => ne same.symm
  exact ⟨apart, apart⟩

theorem Inv.enqueue (inv : Inv s queue) (at_t : s.calls[t]? = some c)
    (quiet : ∀ p, c.pending p = false) {p a : Addr} {pkt : Packet} {s' : State}
    (step : s.enqueue t p pkt (some a) = some s') : ∃ queue', Inv s' queue' := by
  unfold State.enqueue at step
  cases eq : s.portAt p with
  | none => simp [eq] at step
  | some port =>
    cases free : s.heap a with
    | some cell => simp [eq, free] at step
    | none =>
      have ok := inv.queues p port eq
      obtain ⟨port', portAt', hSem, ok', frame⟩ := link_spec (p := p)
        (s := { s with entered := Function.update s.entered p (s.entered p ++ [pkt]) })
        pkt ok free
      obtain ⟨sem', calls', assocs', entered', handed'⟩ := link_rest
        (s := { s with entered := Function.update s.entered p (s.entered p ++ [pkt]) })
        p port pkt a
      simp only [eq, free, Option.some.injEq] at step
      subst step
      have notQueued : ∀ q, a ∉ queue q := by
        intro q mem
        cases eq' : s.portAt q with
        | none => simp [(inv.fresh q eq').2.2] at mem
        | some other =>
          obtain ⟨cell, here⟩ := (inv.queues q other eq').chain.live mem
          exact absurd (free.symm.trans here) (by simp)
      have mine : Call.pending p (.releasing p) = true := by simp [Call.pending]
      refine ⟨Function.update queue p (queue p ++ [a]), ?_⟩
      refine inv.change eq (?_ : _ = some port') hSem ?_ ?_ ?_ ?_ ?_ ?_ ?_ ?_ ?_ assocs' ?_
      · change (State.link _ p port pkt a).portAt p = _
        rw [portAt', Function.update_self]
      · intro q ne
        change (State.link _ p port pkt a).portAt q = _
        rw [portAt', Function.update_of_ne ne]
      · intro q ne
        change (State.link _ p port pkt a).entered q = _ ∧ (State.link _ p port pkt a).handed q = _
        rw [entered', handed']
        exact ⟨Function.update_of_ne ne .., rfl⟩
      · intro q ne
        exact Function.update_of_ne ne ..
      · intro q ne b mem
        apply frame b
        · rintro rfl
          exact notQueued q mem
        · intro mem'
          exact ne (inv.disjoint q p b mem mem')
      · intro h _
        exact congrFun sem' h
      · intro q ne
        change inFlight ((State.link _ p port pkt a).calls.set t _) q = _
        rw [calls']
        have sum := inFlight_set at_t (.releasing p) q
        rw [quiet q, (pending_ne ne).1] at sum
        exact sum
      · change QueueOk _ ((State.link _ p port pkt a).entered p)
          ((State.link _ p port pkt a).handed p) _ _
        rw [entered', handed', Function.update_self]
        change QueueOk _ (Function.update s.entered p (s.entered p ++ [pkt]) p) _ _ _
        rw [Function.update_self]
        exact ok'
      · obtain ⟨n, sem, sum⟩ := inv.counted p port eq
        refine ⟨n, (congrFun sem' _).trans sem, ?_⟩
        change n + inFlight ((State.link _ p port pkt a).calls.set t _) p = _
        rw [calls', Function.update_self, List.length_append]
        have moved := inFlight_set at_t (.releasing p) p
        rw [quiet p, mine] at moved
        simp only [Bool.toNat_false, Bool.toNat_true] at moved
        simp only [List.length_singleton]
        omega
      · intro q ne b mem mem'
        rw [Function.update_self] at mem
        rcases List.mem_append.mp mem with old | new
        · exact ne (inv.disjoint q p b mem' old)
        · obtain rfl := List.mem_singleton.mp new
          exact notQueued q mem'
      · change ∀ d ∈ (State.link _ p port pkt a).calls.set t _, _
        rw [calls']
        exact live_set inv.calls ⟨port, eq⟩

theorem Inv.release (inv : Inv s queue) {p : Addr} (at_t : s.calls[t]? = some (.releasing p))
    {port : IocpPort} (eq : s.portAt p = some port) {n : ℕ} (sem : s.sem port.hSem = some n)
    (r : Reply) :
    Inv ({ s with sem := Function.update s.sem port.hSem (some (n + 1)) }.reply t r) queue := by
  refine inv.change eq eq rfl (fun _ _ => rfl) (fun _ _ => ⟨rfl, rfl⟩) (fun _ _ => rfl)
    (fun _ _ _ _ => rfl) ?_ ?_ (inv.queues p port eq) ?_ ?_ rfl ?_
  · intro h ne
    exact Function.update_of_ne ne ..
  · intro q ne
    have sum := inFlight_set at_t .idle q
    rw [(pending_ne ne).1] at sum
    exact sum
  · obtain ⟨n', sem', sum⟩ := inv.counted p port eq
    obtain rfl : n = n' := Option.some.inj (sem.symm.trans sem')
    have moved := inFlight_set at_t .idle p
    have mine : Call.pending p (.releasing p) = true := by simp [Call.pending]
    have none' : Call.pending p .idle = false := rfl
    rw [mine, none'] at moved
    simp only [Bool.toNat_false, Bool.toNat_true] at moved
    refine ⟨n + 1, Function.update_self .., ?_⟩
    change n + 1 + inFlight (s.calls.set t .idle) p = _
    omega
  · intro q ne a mem mem'
    exact ne (inv.disjoint q p a mem' mem)
  · exact live_set inv.calls trivial

theorem Inv.wait (inv : Inv s queue) {p : Addr} {h : Handle}
    (at_t : s.calls[t]? = some (.waiting p h)) {n : ℕ} (sem : s.sem h = some (n + 1)) :
    Inv ({ s with sem := Function.update s.sem h (some n) }.goto t (.woken p)) queue := by
  obtain ⟨port, eq, rfl⟩ := inv.calls _ (List.mem_of_getElem? at_t)
  refine inv.change eq eq rfl (fun _ _ => rfl) (fun _ _ => ⟨rfl, rfl⟩) (fun _ _ => rfl)
    (fun _ _ _ _ => rfl) ?_ ?_ (inv.queues p port eq) ?_ ?_ rfl ?_
  · intro h ne
    exact Function.update_of_ne ne ..
  · intro q ne
    have sum := inFlight_set at_t (.woken p) q
    rw [(pending_ne ne).2] at sum
    exact sum
  · obtain ⟨n', sem', sum⟩ := inv.counted p port eq
    obtain rfl : n + 1 = n' := Option.some.inj (sem.symm.trans sem')
    have moved := inFlight_set at_t (.woken p) p
    have mine : Call.pending p (.woken p) = true := by simp [Call.pending]
    have none' : Call.pending p (.waiting p port.hSem) = false := rfl
    rw [mine, none'] at moved
    simp only [Bool.toNat_false, Bool.toNat_true] at moved
    refine ⟨n, Function.update_self .., ?_⟩
    change n + inFlight (s.calls.set t (.woken p)) p = _
    omega
  · intro q ne a mem mem'
    exact ne (inv.disjoint q p a mem' mem)
  · exact live_set inv.calls ⟨port, eq⟩

theorem Inv.dequeue (inv : Inv s queue) {p : Addr} (at_t : s.calls[t]? = some (.woken p))
    {s' : State} (step : s.dequeue t p = some s') : ∃ queue', Inv s' queue' := by
  obtain ⟨port, eq⟩ := inv.calls _ (List.mem_of_getElem? at_t)
  have ok := inv.queues p port eq
  obtain ⟨n, sem, sum⟩ := inv.counted p port eq
  have mine : Call.pending p (.woken p) = true := by simp [Call.pending]
  have none' : Call.pending p .idle = false := rfl
  have moved := inFlight_set at_t .idle p
  rw [mine, none'] at moved
  simp only [Bool.toNat_false, Bool.toNat_true] at moved
  cases cells : queue p with
  | nil =>
    rw [cells, List.length_nil] at sum
    omega
  | cons a rest =>
    rw [cells] at ok sum
    obtain ⟨head, pkt, here, -⟩ := ok.chain
    obtain ⟨off, nodup⟩ := List.nodup_cons.mp ok.nodup
    have tail := ok.chain.pop here
    unfold State.dequeue at step
    simp only [eq, head, here, Option.bind_eq_bind, Option.bind_some, Option.some.injEq] at step
    subst step
    refine ⟨Function.update queue p rest, ?_⟩
    refine inv.change eq (Function.update_self ..) rfl ?_ ?_ ?_ ?_ (fun _ _ => rfl) ?_ ?_ ?_ ?_
      rfl ?_
    · intro q ne
      exact Function.update_of_ne ne ..
    · intro q ne
      exact ⟨rfl, Function.update_of_ne ne ..⟩
    · intro q ne
      exact Function.update_of_ne ne ..
    · intro q ne b mem
      have other : b ≠ a := by
        rintro rfl
        exact ne (inv.disjoint q p b mem (cells ▸ List.mem_cons_self ..))
      exact Function.update_of_ne other ..
    · intro q ne
      have same := inFlight_set at_t .idle q
      rw [(pending_ne ne).2] at same
      exact same
    · rw [Function.update_self]
      refine ⟨tail.update_of_notMem off none, ?_, nodup, ?_⟩
      · change (if pkt.next = none then none else port.tail) = _
        rw [tail.head_eq, ok.tail]
        cases rest <;> simp
      · change s.entered p = Function.update s.handed p (s.handed p ++ [pkt.toPacket]) p ++
          contents (Function.update s.heap a none) rest
        have kept : contents (Function.update s.heap a none) rest = contents s.heap rest := by
          apply contents_congr
          intro b mem
          have other : b ≠ a := fun same => off (same ▸ mem)
          rw [Function.update_of_ne other]
        rw [Function.update_self, kept, ok.fifo]
        simp [contents, here]
    · rw [Function.update_self]
      refine ⟨n, sem, ?_⟩
      change n + inFlight (s.calls.set t .idle) p = _
      rw [List.length_cons] at sum
      omega
    · intro q ne b mem mem'
      rw [Function.update_self] at mem
      exact ne (inv.disjoint q p b mem' (cells ▸ List.mem_cons_of_mem a mem))
    · exact live_set inv.calls trivial

theorem Inv.create (inv : Inv s queue) (at_t : s.calls[t]? = some c)
    (quiet : ∀ p, c.pending p = false) {p : Addr} {h : Handle} (newSem : s.sem h = none)
    (newPort : s.portAt p = none) (fileHandle : Handle) (key : ℕ) :
    Inv ({ s with
      portAt := Function.update s.portAt p (some ⟨h, none, none⟩)
      sem := Function.update s.sem h (some 0) }.goto t (.linking p h fileHandle key)) queue := by
  have keeps : Keeps s.portAt (Function.update s.portAt p (some ⟨h, none, none⟩)) := by
    intro q port eq
    have ne : q ≠ p := by
      rintro rfl
      exact absurd (newPort.symm.trans eq) (by simp)
    exact ⟨port, by rw [Function.update_of_ne ne, eq], rfl⟩
  have atNew : ∀ port, Function.update s.portAt p (some ⟨h, none, none⟩) p = some port →
      port = ⟨h, none, none⟩ := by
    intro port eq
    rw [Function.update_self] at eq
    exact (Option.some.inj eq).symm
  have atOld : ∀ q port, q ≠ p →
      Function.update s.portAt p (some ⟨h, none, none⟩) q = some port → s.portAt q = some port := by
    intro q port ne eq
    rwa [Function.update_of_ne ne] at eq
  have oldSem : ∀ q port, s.portAt q = some port → port.hSem ≠ h := by
    rintro q port eq rfl
    obtain ⟨n, sem, -⟩ := inv.counted q port eq
    exact absurd (newSem.symm.trans sem) (by simp)
  have flight : ∀ q, inFlight (s.calls.set t (.linking p h fileHandle key)) q =
      inFlight s.calls q := by
    intro q
    have sum := inFlight_set at_t (.linking p h fileHandle key) q
    rw [quiet q] at sum
    exact sum
  obtain ⟨entered, handed, empty⟩ := inv.fresh p newPort
  constructor
  case queues =>
    intro q port eq
    by_cases here : q = p
    · subst here
      obtain rfl := atNew port eq
      change QueueOk s.heap (s.entered q) (s.handed q) _ _
      rw [entered, handed, empty]
      exact ⟨rfl, rfl, List.nodup_nil, rfl⟩
    · exact inv.queues q port (atOld q port here eq)
  case counted =>
    intro q port eq
    change ∃ n, Function.update s.sem h (some 0) port.hSem = some n ∧
      n + inFlight (s.calls.set t (.linking p h fileHandle key)) q = _
    rw [flight q]
    by_cases here : q = p
    · subst here
      obtain rfl := atNew port eq
      refine ⟨0, Function.update_self .., ?_⟩
      rw [empty, inFlight_dead inv.calls newPort]
      rfl
    · have eq' := atOld q port here eq
      rw [Function.update_of_ne (oldSem q port eq')]
      exact inv.counted q port eq'
  case fresh =>
    intro q dead
    have ne : q ≠ p := by
      rintro rfl
      change Function.update s.portAt q _ q = none at dead
      simp at dead
    change Function.update s.portAt p _ q = none at dead
    rw [Function.update_of_ne ne] at dead
    exact inv.fresh q dead
  case apart =>
    intro q q' port port' eq eq' same
    by_cases here : q = p
    · by_cases here' : q' = p
      · exact here.trans here'.symm
      · subst here
        obtain rfl := atNew port eq
        exact absurd same.symm
          (oldSem q' port' (atOld q' port' here' eq'))
    · have old := atOld q port here eq
      by_cases here' : q' = p
      · subst here'
        obtain rfl := atNew port' eq'
        exact absurd same (oldSem q port old)
      · exact inv.apart q q' port port' old (atOld q' port' here' eq') same
  case disjoint => exact inv.disjoint
  case assocs =>
    intro a mem
    obtain ⟨port, eq⟩ := inv.assocs a mem
    obtain ⟨port', eq', -⟩ := keeps a.port port eq
    exact ⟨port', eq'⟩
  case calls =>
    intro d mem
    have live : Call.Live s.portAt (.linking p h fileHandle key) := trivial
    exact (live_set inv.calls live d mem).keep keeps

end Steps

/-! ## Runs -/

/-- What a step needs: memory for a packet that is announced, and a semaphore that is not at
its maximum. -/
def StepFits (s : State) (op : ℕ × Action) : Prop :=
  match op.2 with
  | .postQueuedCompletionStatus completionPort _ _ _ mem =>
    mem = none → s.findPort completionPort = none
  | .complete mem => ∀ hFile ov bytes status,
    s.calls[op.1]? = some (.completing hFile ov bytes status) → mem = none →
      s.findAssoc hFile = none
  | .releaseSemaphore => ∀ p port n, s.calls[op.1]? = some (.releasing p) →
    s.portAt p = some port → s.sem port.hSem = some n → n < semaphoreMax
  | _ => True

theorem stepFree_inv {s s' : State} {queue : Addr → List Addr} {t : ℕ} {c : Call} {act : Action}
    (inv : Inv s queue) (at_t : s.calls[t]? = some c) (fits : StepFits s (t, act))
    (step : stepFree s t c act = some s') : ∃ queue', Inv s' queue' := by
  unfold stepFree at step
  split at step
  case h_1 fileHandle existing key sem mem =>
    split at step
    · cases step
      exact ⟨queue, inv.withPort at_t (fun _ => rfl) existing fileHandle key⟩
    · split at step
      · cases step
        exact ⟨queue, inv.reply at_t (fun _ => rfl) _⟩
      · split at step
        · rename_i new
          split at step
          · cases step
            exact ⟨queue, inv.reply at_t (fun _ => rfl) _⟩
          · split at step
            · rename_i newPort
              cases step
              exact ⟨queue, inv.create at_t (fun _ => rfl) new.1 newPort fileHandle key⟩
            · cases step
        · cases step
  case h_2 p completionPort =>
    split at step
    · rename_i n sem
      cases step
      exact ⟨queue, inv.wait at_t sem⟩
    · cases step
  case h_3 =>
    cases step
    exact ⟨queue, inv.reply at_t (fun _ => rfl) _⟩
  case h_4 =>
    split at step
    · cases step
      exact ⟨queue, inv.reply at_t (fun _ => rfl) _⟩
    · cases step
      exact ⟨queue, inv.goto at_t (fun _ => rfl) trivial⟩
  case h_5 =>
    split at step
    · cases step
      exact ⟨queue, inv.reply at_t (fun _ => rfl) _⟩
    · cases step
      exact ⟨queue, inv.goto at_t (fun _ => rfl) trivial⟩
  case h_6 p =>
    split at step
    · cases step
    · rename_i port eq
      split at step
      · cases step
      · rename_i n sem
        cases step
        rw [if_pos (fits p port n at_t eq sem)]
        exact ⟨queue, inv.release at_t eq sem _⟩
  case h_7 => cases step

theorem stepLocked_inv {s s' : State} {queue : Addr → List Addr} {t : ℕ} {c : Call}
    {act : Action} (inv : Inv s queue) (at_t : s.calls[t]? = some c)
    (fits : StepFits s (t, act)) (step : stepLocked s t c act = some s') :
    ∃ queue', Inv s' queue' := by
  unfold stepLocked at step
  split at step
  case h_1 p h fileHandle key =>
    cases step
    have linked : Inv { s with ports := p :: s.ports } queue :=
      ⟨inv.queues, inv.counted, inv.fresh, inv.apart, inv.disjoint, inv.assocs, inv.calls⟩
    exact ⟨queue, linked.withPort at_t (fun _ => rfl) h fileHandle key⟩
  case h_2 existing fileHandle key mem =>
    cases step
    exact ⟨queue, inv.associate at_t (fun _ => rfl) existing fileHandle key mem⟩
  case h_3 completionPort bytes key ov mem =>
    split at step
    · cases step
      exact ⟨queue, inv.reply at_t (fun _ => rfl) _⟩
    · rename_i p found
      cases mem with
      | none => exact absurd (fits rfl) (by simp [found])
      | some a => exact inv.enqueue at_t (fun _ => rfl) step
  case h_4 completionPort =>
    split at step
    · cases step
      exact ⟨queue, inv.reply at_t (fun _ => rfl) _⟩
    · rename_i p found
      cases step
      exact ⟨queue, inv.goto at_t (fun _ => rfl) (findPort_some found)⟩
  case h_5 p => exact inv.dequeue at_t step
  case h_6 hFile ov bytes status mem =>
    split at step
    · cases step
      exact ⟨queue, inv.reply at_t (fun _ => rfl) _⟩
    · rename_i a found
      cases mem with
      | none => exact absurd (fits hFile ov bytes status at_t rfl) (by simp [found])
      | some b => exact inv.enqueue at_t (fun _ => rfl) step
  case h_7 hFile =>
    cases step
    have forgot : Inv { s with assocs := s.assocs.eraseP fun a => a.hFile == hFile } queue := by
      refine ⟨inv.queues, inv.counted, inv.fresh, inv.apart, inv.disjoint, ?_, inv.calls⟩
      intro a mem
      exact inv.assocs a (List.mem_of_mem_eraseP mem)
    exact ⟨queue, forgot.reply at_t (fun _ => rfl) _⟩
  case h_8 => cases step

theorem step_inv {s s' : State} {queue : Addr → List Addr} {op : ℕ × Action}
    (inv : Inv s queue) (fits : StepFits s op) (stepped : step s op = some s') :
    ∃ queue', Inv s' queue' := by
  obtain ⟨t, act⟩ := op
  unfold step at stepped
  obtain ⟨c, at_t, stepped⟩ := Option.bind_eq_some_iff.mp stepped
  split at stepped
  · rename_i s'' free
    cases stepped
    exact stepFree_inv inv at_t fits free
  · split at stepped
    · cases stepped
    · exact stepLocked_inv inv at_t fits stepped

/-- The steps of a run fit, one after the other. -/
def StepsFit : State → List (ℕ × Action) → Prop
  | _, [] => True
  | s, op :: ops => StepFits s op ∧ ∀ s', step s op = some s' → StepsFit s' ops

theorem run_inv {s s' : State} {queue : Addr → List Addr} {ops : List (ℕ × Action)}
    (inv : Inv s queue) (fits : StepsFit s ops) (ran : run ops s = some s') :
    ∃ queue', Inv s' queue' := by
  induction ops generalizing s queue with
  | nil =>
    obtain rfl : s = s' := Option.some.inj ran
    exact ⟨queue, inv⟩
  | cons op ops ih =>
    obtain ⟨s₁, stepped, rest⟩ := Option.bind_eq_some_iff.mp ran
    obtain ⟨queue₁, inv₁⟩ := step_inv inv fits.1 stepped
    exact ih inv₁ (fits.2 s₁ stepped) rest

/-- With memory for the packets, any number of threads in any order deliver each packet once,
in order, and the semaphore counts what is queued. -/
theorem run_delivered (threads : ℕ) (ops : List (ℕ × Action)) (s : State)
    (fits : StepsFit (init threads) ops) (ran : run ops (init threads) = some s) :
    s.Delivered := by
  obtain ⟨queue, inv⟩ := run_inv (inv_init threads) fits ran
  exact inv.delivered

/-- One thread makes a port, posts a packet and takes it out again. -/
def postAndGet : List (ℕ × Action) :=
  [(0, .createIoCompletionPort invalidHandleValue 0 0 (some 4) (some 100)), (0, .linkPort),
    (0, .postQueuedCompletionStatus 4 1 2 3 (some 200)), (0, .releaseSemaphore),
    (0, .getQueuedCompletionStatus 4), (0, .waitForSingleObject), (0, .dequeue)]

theorem run_delivered_postAndGet :
    ∃ s, run postAndGet (init 2) = some s ∧ s.handed 100 = [⟨1, 2, 3, 0⟩] ∧ s.Delivered := by
  refine ⟨_, rfl, rfl, run_delivered 2 postAndGet _ ?_ rfl⟩
  refine ⟨trivial, ?_⟩
  rintro s₁ ⟨⟩
  refine ⟨trivial, ?_⟩
  rintro s₂ ⟨⟩
  refine ⟨fun full => absurd full (by simp), ?_⟩
  rintro s₃ ⟨⟩
  refine ⟨?_, ?_⟩
  · rintro p port n at_t eq sem
    cases at_t
    cases eq
    cases sem
    decide
  rintro s₄ ⟨⟩
  refine ⟨trivial, ?_⟩
  rintro s₅ ⟨⟩
  refine ⟨trivial, ?_⟩
  rintro s₆ ⟨⟩
  exact ⟨trivial, fun _ _ => trivial⟩

/-- A packet is posted when there is no memory for it: the call returns `TRUE`, and no thread
will ever see the packet. -/
theorem lostPost_not_delivered : ¬ ∀ (threads : ℕ) (ops : List (ℕ × Action)) (s : State),
    run ops (init threads) = some s → s.Delivered := by
  intro all
  have delivered := all 1
    [(0, .createIoCompletionPort invalidHandleValue 0 0 (some 4) (some 100)), (0, .linkPort),
      (0, .postQueuedCompletionStatus 4 1 2 3 none)] _ rfl
  obtain ⟨queue, ok, -⟩ := delivered 100 ⟨4, none, none⟩ rfl
  have empty : queue = [] := by
    have chain := ok.chain.head_eq
    cases queue with
    | nil => rfl
    | cons a rest => cases chain
  subst empty
  have fifo : [(⟨1, 2, 3, 0⟩ : Packet)] = [] ++ [] := ok.fifo
  cases fifo

end Odin32.Iocp
