import Odin32.ThreadpoolWork
import Mathlib.Data.List.Chain
import Mathlib.Tactic.Common

/-! # The reference count of a work object

The count is one for the owner, until the close, and one for each call that has a reference of
its own. It comes down to nothing once, and then a thread frees the object, except where
`SubmitThreadpoolWork` itself drops the last reference. -/

set_option autoImplicit false

namespace Odin32.ThreadpoolWork

/-! ## Counting calls -/

def callsOf (p : Frame → Bool) (threads : List Thread) : ℕ :=
  (threads.flatMap Thread.stack).countP p

theorem callsOf_append (p : Frame → Bool) (l₁ l₂ : List Thread) :
    callsOf p (l₁ ++ l₂) = callsOf p l₁ + callsOf p l₂ := by
  simp only [callsOf, List.flatMap_append, List.countP_append]

theorem callsOf_set (p : Frame → Bool) {threads : List Thread} {i : ℕ} {t : Thread}
    (at_i : threads[i]? = some t) (t' : Thread) :
    callsOf p (threads.set i t') + t.stack.countP p =
      callsOf p threads + t'.stack.countP p := by
  induction threads generalizing i with
  | nil => cases at_i
  | cons u threads ih =>
    cases i with
    | zero =>
      obtain rfl : u = t := by simpa using at_i
      simp only [callsOf, List.set_cons_zero, List.flatMap_cons, List.countP_append]
      omega
    | succ i =>
      have rest := ih (i := i) (by simpa using at_i)
      simp only [callsOf, List.set_cons_succ, List.flatMap_cons, List.countP_append] at rest ⊢
      omega

theorem stack_le_callsOf (p : Frame → Bool) {threads : List Thread} {i : ℕ} {t : Thread}
    (at_i : threads[i]? = some t) : t.stack.countP p ≤ callsOf p threads := by
  have taken := callsOf_set p at_i ⟨false, []⟩
  simp only [List.countP_nil] at taken
  omega

/-! ## What is kept -/

def isFreeing (f : Frame) : Bool := f == .freeing

/-- Below a call is the callback that made it. -/
def Nested (stack : List Frame) : Prop := stack.IsChain fun _ g => g.isCallback = true

/-- The owner's reference. -/
def owner (closed : Bool) : ℕ := if closed then 0 else 1

def gone (refs : ℤ) : ℕ := if refs = 0 then 1 else 0

structure Inv (s : State) : Prop where
  count : s.refs = owner s.closed + callsOf Frame.holds s.threads
  freed : callsOf isFreeing s.threads + s.frees = gone s.refs
  unused : s.misused = false
  nested : ∀ t ∈ s.threads, Nested t.stack

variable {s s' : State} {i : ℕ} {t : Thread}

theorem holds_of_unfinished {f : Frame} (unfinished : f.unfinished = true) : f.holds = true := by
  cases f <;> simp_all [Frame.unfinished, Frame.holds]

theorem holds_of_isCallback {f : Frame} (callback : f.isCallback = true) : f.holds = true := by
  cases f <;> simp_all [Frame.isCallback, Frame.holds]

theorem gone_of_ne (refs : ℤ) (ne : refs ≠ 0) : gone refs = 0 := if_neg ne

theorem gone_le (refs : ℤ) : gone refs ≤ 1 := by
  unfold gone
  split <;> omega

theorem Inv.frees_eq_zero (inv : Inv s) (alive : s.refs ≠ 0) : s.frees = 0 := by
  have freed := inv.freed
  rw [gone_of_ne _ alive] at freed
  omega

theorem Inv.promised (inv : Inv s) : Promised s := by
  have freed := inv.freed
  have count := inv.count
  have atMost := gone_le s.refs
  refine ⟨inv.unused, by omega, fun some => ?_, fun closed quiet => ?_⟩
  · have zero : s.refs = 0 := by
      by_contra more
      have none := inv.frees_eq_zero more
      omega
    have noOwner : owner s.closed = 0 := by omega
    have noHolder : callsOf Frame.holds s.threads = 0 := by omega
    refine ⟨?_, fun f mem => ?_⟩
    · by_contra notClosed
      rw [owner, if_neg notClosed] at noOwner
      cases noOwner
    · by_contra unfinished
      refine List.countP_eq_zero.mp noHolder f mem (holds_of_unfinished ?_)
      simpa using unfinished
  · have none : ∀ p, callsOf p s.threads = 0 := by
      intro p
      rw [callsOf, show s.threads.flatMap Thread.stack = [] from quiet]
      rfl
    rw [none, owner, if_pos closed] at count
    rw [none, gone, if_pos (by simpa using count)] at freed
    omega

theorem touch_of_frees (unused : s.misused = false) (none : s.frees = 0) : s.touch = s := by
  obtain ⟨refs, closed, frees, misused, threads⟩ := s
  obtain rfl : misused = false := unused
  obtain rfl : frees = 0 := none
  rfl

theorem Inv.refs_of_holds (inv : Inv s) (at_i : s.threads[i]? = some t) {f : Frame}
    (mem : f ∈ t.stack) (holds : f.holds = true) : 0 < s.refs := by
  have positive : 0 < t.stack.countP Frame.holds := List.countP_pos_iff.mpr ⟨f, mem, holds⟩
  have le := stack_le_callsOf Frame.holds at_i
  have count := inv.count
  omega

theorem Inv.touch (inv : Inv s) (alive : 0 < s.refs) : s.touch = s :=
  touch_of_frees inv.unused (inv.frees_eq_zero (by omega))

theorem Inv.move (inv : Inv s) (at_i : s.threads[i]? = some t) {stack : List Frame}
    (refs : ℤ) (closed : Bool) (frees : ℕ) (nested : Nested stack)
    (count : refs + owner s.closed + t.stack.countP Frame.holds =
      s.refs + owner closed + stack.countP Frame.holds)
    (freed : stack.countP isFreeing + frees + gone s.refs =
      t.stack.countP isFreeing + s.frees + gone refs) :
    Inv ({ s with refs := refs, closed := closed, frees := frees }.setStack i t stack) := by
  have moved := callsOf_set Frame.holds at_i { t with stack := stack }
  have moved' := callsOf_set isFreeing at_i { t with stack := stack }
  have was := inv.count
  have was' := inv.freed
  refine ⟨?_, ?_, inv.unused, fun u mem => ?_⟩
  · simp only [State.setStack] at moved ⊢
    omega
  · simp only [State.setStack] at moved' ⊢
    omega
  · rcases List.mem_or_eq_of_mem_set mem with old | rfl
    · exact inv.nested u old
    · exact nested

theorem nested_top {f f' : Frame} {rest : List Frame} (nested : Nested (f :: rest)) :
    Nested (f' :: rest) := by
  rw [Nested, List.isChain_cons] at nested ⊢
  exact nested

theorem nested_tail {f : Frame} {rest : List Frame} (nested : Nested (f :: rest)) : Nested rest :=
  (List.isChain_cons.mp nested).2

theorem nested_push (free : t.free = true) (nested : Nested t.stack) (f : Frame) :
    Nested (f :: t.stack) := by
  refine List.isChain_cons.mpr ⟨fun g at_top => ?_, nested⟩
  cases stack : t.stack with
  | nil =>
    rw [stack] at at_top
    cases at_top
  | cons top rest =>
    rw [stack] at at_top
    obtain rfl : top = g := by simpa using at_top
    simpa [Thread.free, stack] using free

theorem Inv.go (inv : Inv s) (at_i : s.threads[i]? = some t) {f f' : Frame} {rest : List Frame}
    (stack : t.stack = f :: rest) (holds : f'.holds = f.holds)
    (free : isFreeing f' = isFreeing f) : Inv (s.setStack i t (f' :: rest)) := by
  have nested := inv.nested t (List.mem_of_getElem? at_i)
  rw [stack] at nested
  refine inv.move at_i s.refs s.closed s.frees
    (nested_top nested) ?_ ?_
  · rw [stack, List.countP_cons, List.countP_cons, holds]
  · rw [stack, List.countP_cons, List.countP_cons, free]

theorem Inv.release (inv : Inv s) (at_i : s.threads[i]? = some t) (closed : Bool)
    {rest : List Frame} (alive : 0 < s.refs) (nested : Nested (.freeing :: rest))
    (count : s.refs - 1 + owner s.closed + t.stack.countP Frame.holds =
      s.refs + owner closed + rest.countP Frame.holds)
    (freed : rest.countP isFreeing = t.stack.countP isFreeing) :
    Inv (({ s with closed := closed }).release i t rest) := by
  have same : ({ s with closed := closed } : State).touch = { s with closed := closed } :=
    touch_of_frees inv.unused (inv.frees_eq_zero (by omega))
  have none := gone_of_ne s.refs (by omega)
  unfold State.release
  rw [same]
  by_cases last : s.refs - 1 = 0
  · rw [if_pos last]
    refine inv.move at_i (s.refs - 1) closed s.frees nested ?_ ?_
    · rw [count, List.countP_cons_of_neg (by decide)]
    · rw [none, List.countP_cons_of_pos (by decide), gone, if_pos last]
      omega
  · rw [if_neg last]
    refine inv.move at_i (s.refs - 1) closed s.frees
      (nested_tail nested) count ?_
    rw [none, gone_of_ne _ last]
    omega

theorem Inv.create (inv : Inv s) (at_i : s.threads[i]? = some t) {rest : List Frame}
    (stack : t.stack = .creating :: rest) :
    Inv { s.setStack i t rest with
      threads := (s.setStack i t rest).threads ++ [⟨false, [.starting]⟩] } := by
  have nested := inv.nested t (List.mem_of_getElem? at_i)
  rw [stack] at nested
  have moved := callsOf_set Frame.holds at_i { t with stack := rest }
  have moved' := callsOf_set isFreeing at_i { t with stack := rest }
  rw [stack, List.countP_cons_of_pos rfl] at moved
  rw [stack, List.countP_cons_of_neg (by decide)] at moved'
  have was := inv.count
  have was' := inv.freed
  refine ⟨?_, ?_, inv.unused, fun u mem => ?_⟩
  · simp only [State.setStack, callsOf_append] at moved ⊢
    have one : callsOf Frame.holds [⟨false, [.starting]⟩] = 1 := rfl
    omega
  · simp only [State.setStack, callsOf_append] at moved' ⊢
    have none : callsOf isFreeing [⟨false, [.starting]⟩] = 0 := rfl
    omega
  · rcases List.mem_append.mp mem with old | new
    · rcases List.mem_or_eq_of_mem_set old with old | rfl
      · exact inv.nested u old
      · exact nested_tail nested
    · obtain rfl := List.mem_singleton.mp new
      exact List.isChain_singleton _

/-! ## Runs -/

/-- A reference that `SubmitThreadpoolWork` drops itself is not the last one. -/
def Frame.dropFits (refs : ℤ) : Frame → Prop
  | .afterSubmit => refs ≠ 1
  | _ => True

/-- Outside of the callback the object is used while somebody has a reference; the count can
still be looked at when the last one has just been dropped. -/
def StepFitsOf (s : State) : List Frame → Action → Prop
  | [], .submit => 0 < s.refs
  | [.waiting], .poll => 0 < s.refs ∨ 0 < callsOf isFreeing s.threads
  | f :: _, .drop => f.dropFits s.refs
  | _, _ => True

def StepFits (s : State) (op : ℕ × Action) : Prop :=
  ∀ t, s.threads[op.1]? = some t → StepFitsOf s t.stack op.2

theorem Inv.submit (inv : Inv s) (at_i : s.threads[i]? = some t) (free : t.free = true)
    (fits : t.stack = [] → 0 < s.refs) :
    Inv ({ s.touch with refs := s.refs + 1 }.setStack i t (.creating :: t.stack)) := by
  have alive : 0 < s.refs := by
    cases stack : t.stack with
    | nil => exact fits stack
    | cons top rest =>
      have callback : top.isCallback = true := by simpa [Thread.free, stack] using free
      exact inv.refs_of_holds at_i (by rw [stack]; exact List.mem_cons_self ..)
        (holds_of_isCallback callback)
  rw [inv.touch alive]
  refine inv.move at_i (s.refs + 1) s.closed s.frees
    (nested_push free (inv.nested t (List.mem_of_getElem? at_i)) .creating) ?_ ?_
  · rw [List.countP_cons_of_pos rfl]
    omega
  · rw [gone_of_ne s.refs (by omega), gone_of_ne (s.refs + 1) (by omega),
      List.countP_cons_of_neg (by decide)]

theorem Inv.poll (inv : Inv s) (at_i : s.threads[i]? = some t) {rest : List Frame}
    (stack : t.stack = .waiting :: rest)
    (fits : rest = [] → 0 < s.refs ∨ 0 < callsOf isFreeing s.threads) : s.touch = s := by
  have nested := inv.nested t (List.mem_of_getElem? at_i)
  rw [stack] at nested
  apply touch_of_frees inv.unused
  have freed := inv.freed
  have atMost := gone_le s.refs
  cases rest with
  | nil =>
    rcases fits rfl with alive | freeing
    · exact inv.frees_eq_zero (by omega)
    · omega
  | cons top rest =>
    have callback : top.isCallback = true := (List.isChain_cons.mp nested).1 top rfl
    have alive := inv.refs_of_holds at_i (f := top) (by rw [stack]; simp)
      (holds_of_isCallback callback)
    exact inv.frees_eq_zero (by omega)

theorem step_inv {op : ℕ × Action} (inv : Inv s) (fits : StepFits s op)
    (stepped : step s op = some s') : Inv s' := by
  obtain ⟨i, act⟩ := op
  obtain ⟨t, at_i, stepped⟩ := Option.bind_eq_some_iff.mp stepped
  have fits : StepFitsOf s t.stack act := fits t at_i
  have nested := inv.nested t (List.mem_of_getElem? at_i)
  have holder : ∀ f rest, t.stack = f :: rest → f.holds = true → 0 < s.refs := by
    intro f rest stack holds
    exact inv.refs_of_holds at_i (by rw [stack]; exact List.mem_cons_self ..) holds
  cases act with
  | submit =>
    by_cases free : t.free = true
    · have taken : stepOf s i t t.stack .submit = some ({ s.touch with refs := s.refs + 1 }.setStack
          i t (.creating :: t.stack)) := by
        simp only [stepOf, if_pos free]
      obtain rfl := Option.some.inj (taken.symm.trans stepped)
      refine inv.submit at_i free fun empty => ?_
      rw [empty] at fits
      exact fits
    · simp only [stepOf, if_neg free] at stepped
      cases stepped
  | createThread ok =>
    cases stack : t.stack with
    | nil => simp [stepOf, stack] at stepped
    | cons f rest =>
      cases f with
      | creating =>
        cases ok with
        | true =>
          simp only [stepOf, stack, Option.some.injEq] at stepped
          subst stepped
          exact inv.create at_i stack
        | false =>
          simp only [stepOf, stack, Option.some.injEq] at stepped
          subst stepped
          exact inv.go at_i stack rfl rfl
      | _ => simp [stepOf, stack] at stepped
  | callback =>
    cases stack : t.stack with
    | nil => simp [stepOf, stack] at stepped
    | cons f rest =>
      cases f with
      | calling =>
        simp only [stepOf, stack, Option.some.injEq] at stepped
        subst stepped
        rw [inv.touch (holder _ _ stack rfl)]
        exact inv.go at_i stack rfl rfl
      | starting =>
        simp only [stepOf, stack, Option.some.injEq] at stepped
        subst stepped
        rw [inv.touch (holder _ _ stack rfl)]
        exact inv.go at_i stack rfl rfl
      | _ => simp [stepOf, stack] at stepped
  | callbackReturns =>
    cases stack : t.stack with
    | nil => simp [stepOf, stack] at stepped
    | cons f rest =>
      cases f with
      | inSubmit =>
        simp only [stepOf, stack, Option.some.injEq] at stepped
        subst stepped
        exact inv.go at_i stack rfl rfl
      | inThread =>
        simp only [stepOf, stack, Option.some.injEq] at stepped
        subst stepped
        exact inv.go at_i stack rfl rfl
      | _ => simp [stepOf, stack] at stepped
  | drop =>
    cases stack : t.stack with
    | nil => simp [stepOf, stack] at stepped
    | cons f rest =>
      rw [stack] at fits nested
      cases f with
      | afterSubmit =>
        simp only [stepOf, stack, Option.some.injEq] at stepped
        subst stepped
        have alive := holder _ _ stack rfl
        have another : s.refs ≠ 1 := fits
        rw [inv.touch alive]
        refine inv.move at_i (s.refs - 1) s.closed s.frees
          (nested_tail nested) ?_ ?_
        · rw [stack, List.countP_cons_of_pos rfl]
          omega
        · rw [stack, gone_of_ne s.refs (by omega), List.countP_cons_of_neg (by decide),
            gone_of_ne (s.refs - 1) (by omega)]
      | afterThread =>
        simp only [stepOf, stack, Option.some.injEq] at stepped
        subst stepped
        refine inv.release at_i s.closed (holder _ _ stack rfl) (nested_top nested)
          ?_ ?_
        · rw [stack, List.countP_cons_of_pos rfl]
          omega
        · rw [stack, List.countP_cons_of_neg (by decide)]
      | _ => simp [stepOf, stack] at stepped
  | wait =>
    by_cases free : t.free = true
    · have taken : stepOf s i t t.stack .wait = some (s.setStack i t (.waiting :: t.stack)) := by
        simp only [stepOf, if_pos free]
      obtain rfl := Option.some.inj (taken.symm.trans stepped)
      refine inv.move at_i s.refs s.closed s.frees
        (nested_push free nested .waiting) ?_ ?_
      · rw [List.countP_cons_of_neg (by decide)]
      · rw [List.countP_cons_of_neg (by decide)]
    · simp only [stepOf, if_neg free] at stepped
      cases stepped
  | poll =>
    cases stack : t.stack with
    | nil => simp [stepOf, stack] at stepped
    | cons f rest =>
      rw [stack] at fits nested
      cases f with
      | waiting =>
        simp only [stepOf, stack] at stepped
        have same : s.touch = s := inv.poll at_i stack fun empty => by
          rw [empty] at fits
          exact fits
        rw [same] at stepped
        split at stepped
        · obtain rfl := Option.some.inj stepped
          exact inv
        · obtain rfl := Option.some.inj stepped
          refine inv.move at_i s.refs s.closed s.frees
            (nested_tail nested) ?_ ?_
          · rw [stack, List.countP_cons_of_neg (by decide)]
          · rw [stack, List.countP_cons_of_neg (by decide)]
      | _ => simp [stepOf, stack] at stepped
  | close =>
    by_cases can : (t.free && !s.closed) = true
    · have taken : stepOf s i t t.stack .close =
          some ({ s with closed := true }.release i t t.stack) := by
        simp only [stepOf, if_pos can]
      obtain rfl := Option.some.inj (taken.symm.trans stepped)
      obtain ⟨free, notClosed⟩ : t.free = true ∧ s.closed = false := by simpa using can
      have count := inv.count
      rw [notClosed, owner] at count
      refine inv.release at_i true ?_ (nested_push free nested .freeing) ?_ rfl
      · simp only [Bool.false_eq_true, if_false] at count
        omega
      · rw [notClosed, owner, owner]
        simp
    · simp only [stepOf, if_neg can] at stepped
      cases stepped
  | free =>
    cases stack : t.stack with
    | nil => simp [stepOf, stack] at stepped
    | cons f rest =>
      rw [stack] at nested
      cases f with
      | freeing =>
        simp only [stepOf, stack, Option.some.injEq] at stepped
        subst stepped
        refine inv.move at_i s.refs s.closed (s.frees + 1)
          (nested_tail nested) ?_ ?_
        · rw [stack, List.countP_cons_of_neg (by decide)]
        · rw [stack, List.countP_cons_of_pos (by decide)]
          omega
      | _ => simp [stepOf, stack] at stepped

theorem inv_init (outside : ℕ) : Inv (init outside) := by
  have none : ∀ p, callsOf p (List.replicate outside ⟨true, []⟩) = 0 := by
    intro p
    have empty : (List.replicate outside (⟨true, []⟩ : Thread)).flatMap Thread.stack = [] := by
      simp
    rw [callsOf, empty]
    rfl
  refine ⟨?_, ?_, rfl, fun t mem => ?_⟩
  · simp only [init, none]
    rfl
  · simp only [init, none]
    rfl
  · obtain rfl := List.eq_of_mem_replicate mem
    exact List.isChain_nil

/-- A work object is freed once in every interleaving in which no synchronous callback has the
last reference and no call from outside of the callback uses it without one. -/
theorem threadpoolWork_promised (outside : ℕ) (ops : List (ℕ × Action)) (s : State)
    (fits : StepRun.Meets step StepFits (init outside) ops)
    (ran : StepRun.run step ops (init outside) = some s) : Promised s :=
  (StepRun.run_keeps (fun _ _ _ => step_inv) (inv_init outside) fits ran).promised

/-- The owner closes while the callback runs on a thread of its own. -/
def closedEarly : List (ℕ × Action) :=
  [(0, .submit), (0, .createThread true), (1, .callback), (0, .close), (1, .callbackReturns),
    (1, .drop), (1, .free)]

theorem closedEarly_fits : StepRun.Meets step StepFits (init 1) closedEarly := by
  refine (StepRun.meets_some rfl).mp ⟨?_, (StepRun.meets_some rfl).mp ⟨?_,
    (StepRun.meets_some rfl).mp ⟨?_, (StepRun.meets_some rfl).mp ⟨?_,
    (StepRun.meets_some rfl).mp ⟨?_, (StepRun.meets_some rfl).mp ⟨?_,
    (StepRun.meets_some rfl).mp ⟨?_, trivial⟩⟩⟩⟩⟩⟩⟩
  · rintro t ⟨⟩
    exact Int.zero_lt_one
  all_goals
    rintro t ⟨⟩
    trivial

theorem threadpoolWork_promised_closedEarly :
    ∃ s, StepRun.run step closedEarly (init 1) = some s ∧ Promised s :=
  ⟨_, rfl, threadpoolWork_promised 1 closedEarly _ closedEarly_fits rfl⟩

/-- No thread can be created, and the callback closes the object. -/
def closedInside : List (ℕ × Action) :=
  [(0, .submit), (0, .createThread false), (0, .callback), (0, .close), (0, .callbackReturns),
    (0, .drop)]

theorem closedInside_not_promised : ¬ ∀ (outside : ℕ) (ops : List (ℕ × Action)) (s : State),
    StepRun.run step ops (init outside) = some s → Promised s := by
  intro all
  have promised := all 1 closedInside _ rfl
  have freed := promised.atEnd rfl rfl
  cases freed

end Odin32.ThreadpoolWork
