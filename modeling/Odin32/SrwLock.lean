import Odin32.StepRun
import Mathlib.Tactic.Common

/-! # Slim locks and condition variables

`AcquireSRWLock…`, `ReleaseSRWLock…`, `TryAcquireSRWLock…`, `WakeConditionVariable` and
`SleepConditionVariableSRW` of `vistacompat.cpp`. A shared lock is taken as an exclusive one, and
waking one sleeper is waking all of them. Each access to the two words is a step of the thread
that makes it. -/

set_option autoImplicit false

namespace Odin32.SrwLock

inductive Call where
  | idle
  /-- In the loop of `srw_acquire`. -/
  | acquire
  | tryAcquire
  | release
  | wake
  /-- `SleepConditionVariableSRW` before the load of the generation. -/
  | sleep
  | unlock (generation : ℕ)
  | sleeping (generation : ℕ)
  /-- In `srw_acquire` at the end of the sleep. -/
  | acquireAgain (fOk : Bool)
deriving DecidableEq

/-- The words of a lock and of a condition variable. Of the threads is kept who has the lock,
and how many wake-ups there were since a sleeper loaded its generation. -/
structure State (τ : Type) where
  lock : ℕ
  cv : ℕ
  calls : τ → Call
  locked : τ → Bool
  wakes : τ → ℕ

inductive Action where
  | acquire
  | tryAcquire
  | release
  | wake
  | sleep
  /-- The next access; `expired` says whether the time of a sleeper is over. -/
  | go (expired : Bool)
deriving DecidableEq

variable {τ : Type} [DecidableEq τ]

/-- `InitializeSRWLock` and `InitializeConditionVariable` -/
def init : State τ := ⟨0, 0, fun _ => .idle, fun _ => false, fun _ => 0⟩

def State.goto (s : State τ) (t : τ) (c : Call) : State τ :=
  { s with calls := Function.update s.calls t c }

/-- `__sync_val_compare_and_swap(lock, 0, 1)`: the next call of a thread that finds 0. -/
def State.compareSwap (s : State τ) (t : τ) (busy : Call) : State τ :=
  if s.lock = 0 then
    { s with lock := 1, locked := Function.update s.locked t true }.goto t .idle
  else s.goto t busy

/-- `__sync_lock_release` -/
def State.lockRelease (s : State τ) (t : τ) (c : Call) : State τ :=
  { s with lock := 0, locked := Function.update s.locked t false }.goto t c

def State.go (s : State τ) (t : τ) (expired : Bool) : Call → Option (State τ)
  | .idle => none
  | .acquire => some (s.compareSwap t .acquire)
  | .tryAcquire => some (s.compareSwap t .idle)
  | .release => some (s.lockRelease t .idle)
  | .wake =>
    some ({ s with cv := (s.cv + 1) % 0x100000000, wakes := fun t' => s.wakes t' + 1 }.goto t .idle)
  | .sleep => some ({ s with wakes := Function.update s.wakes t 0 }.goto t (.unlock s.cv))
  | .unlock generation => some (s.lockRelease t (.sleeping generation))
  | .sleeping generation =>
    if s.cv = generation then
      some (if expired then s.goto t (.acquireAgain false) else s.goto t (.sleeping generation))
    else some (s.goto t (.acquireAgain true))
  | .acquireAgain fOk => some (s.compareSwap t (.acquireAgain fOk))

def step (s : State τ) (op : τ × Action) : Option (State τ) :=
  match s.calls op.1, op.2 with
  | .idle, .acquire => some (s.goto op.1 .acquire)
  | .idle, .tryAcquire => some (s.goto op.1 .tryAcquire)
  | .idle, .release => some (s.goto op.1 .release)
  | .idle, .wake => some (s.goto op.1 .wake)
  | .idle, .sleep => some (s.goto op.1 .sleep)
  | c, .go expired => s.go op.1 expired c
  | _, _ => none

/-- The lock has one owner at most, and a sleeper goes on for a wake-up: it is told of one if
there was one, unless there were so many that the word is back at its generation. -/
structure Promised (s : State τ) : Prop where
  exclusive : ∀ t t', s.locked t = true → s.locked t' = true → t = t'
  word : s.lock = 0 ∨ s.lock = 1
  free : s.lock = 0 ↔ ∀ t, s.locked t = false
  told : ∀ t generation, s.calls t = .sleeping generation → s.wakes t < 0x100000000 →
    ∀ expired, step s (t, .go expired) = some (s.goto t
      (if 0 < s.wakes t then .acquireAgain true
      else if expired then .acquireAgain false else .sleeping generation))

/-- A thread releases what it has acquired, and sleeps with the lock. -/
def StepFits (s : State τ) (op : τ × Action) : Prop :=
  op.2 = .release ∨ op.2 = .sleep → s.locked op.1 = true

instance (s : State τ) (op : τ × Action) : Decidable (StepFits s op) :=
  inferInstanceAs (Decidable (_ → _))

/-! ## What is kept -/

/-- The places of the calls at which a thread has the lock. -/
def Call.Placed (locked : Bool) : Call → Prop
  | .release | .sleep | .unlock _ => locked = true
  | .sleeping _ | .acquireAgain _ => locked = false
  | _ => True

structure Inv (s : State τ) : Prop where
  exclusive : ∀ t t', s.locked t = true → s.locked t' = true → t = t'
  free : s.lock = 0 ↔ ∀ t, s.locked t = false
  one : s.lock = 0 ∨ s.lock = 1
  placed : ∀ t, (s.calls t).Placed (s.locked t)
  cv : s.cv < 0x100000000
  generation : ∀ t g, s.calls t = .unlock g ∨ s.calls t = .sleeping g →
    g < 0x100000000 ∧ s.cv = (g + s.wakes t) % 0x100000000

variable {s s' : State τ} {t : τ} {c : Call}

theorem goto_calls (s : State τ) (t t' : τ) (c : Call) :
    (s.goto t c).calls t' = if t' = t then c else s.calls t' := by
  rw [State.goto]
  exact Function.update_apply s.calls t c t'

/-- The thread goes on, and the words stay. -/
theorem Inv.goto (inv : Inv s) (placed : c.Placed (s.locked t))
    (old : ∀ g, c = .unlock g ∨ c = .sleeping g → s.calls t = .unlock g ∨ s.calls t = .sleeping g) :
    Inv (s.goto t c) where
  exclusive := inv.exclusive
  free := inv.free
  one := inv.one
  placed t' := by
    rw [goto_calls]
    split_ifs with same
    · rw [same]
      exact placed
    · exact inv.placed t'
  cv := inv.cv
  generation t' g at_t' := by
    rw [goto_calls] at at_t'
    split_ifs at at_t' with same
    · rw [same]
      exact inv.generation t g (old g at_t')
    · exact inv.generation t' g at_t'

/-- The lock is taken when nobody has it. -/
theorem Inv.take (inv : Inv s) (zero : s.lock = 0) (t : τ) :
    Inv ({ s with lock := 1, locked := Function.update s.locked t true }.goto t .idle) where
  exclusive t₁ t₂ locked₁ locked₂ := by
    have nobody := inv.free.mp zero
    have only : ∀ t', Function.update s.locked t true t' = true → t' = t := by
      intro t' locked
      by_contra other
      rw [Function.update_of_ne other, nobody t'] at locked
      cases locked
    exact (only t₁ locked₁).trans (only t₂ locked₂).symm
  free := by
    refine iff_of_false Nat.one_ne_zero fun nobody => ?_
    have locked : Function.update s.locked t true t = false := nobody t
    rw [Function.update_self] at locked
    cases locked
  one := .inr rfl
  placed t' := by
    rw [goto_calls]
    split_ifs with same
    · trivial
    · show (s.calls t').Placed (Function.update s.locked t true t')
      rw [Function.update_of_ne same]
      exact inv.placed t'
  cv := inv.cv
  generation t' g at_t' := by
    rw [goto_calls] at at_t'
    split_ifs at at_t' with same
    · rcases at_t' with at_t' | at_t' <;> cases at_t'
    · exact inv.generation t' g at_t'

theorem Inv.compareSwap (inv : Inv s) (placed : c.Placed (s.locked t))
    (old : ∀ g, c = .unlock g ∨ c = .sleeping g → s.calls t = .unlock g ∨ s.calls t = .sleeping g) :
    Inv (s.compareSwap t c) := by
  rw [State.compareSwap]
  split_ifs with zero
  · exact inv.take zero t
  · exact inv.goto placed old

theorem Inv.lockRelease (inv : Inv s) (locked : s.locked t = true) (placed : c.Placed false)
    (old : ∀ g, c = .unlock g ∨ c = .sleeping g → s.calls t = .unlock g ∨ s.calls t = .sleeping g) :
    Inv (s.lockRelease t c) := by
  -- nobody else has the lock
  have nobody : ∀ t', Function.update s.locked t false t' = false := by
    intro t'
    by_cases same : t' = t
    · rw [same, Function.update_self]
    · rw [Function.update_of_ne same]
      by_contra other
      exact same (inv.exclusive t' t (Bool.not_eq_false _ ▸ other) locked)
  constructor
  · intro t₁ t₂ locked₁
    cases (nobody t₁).symm.trans locked₁
  · exact iff_of_true rfl nobody
  · exact .inl rfl
  · intro t'
    rw [State.lockRelease, goto_calls]
    split_ifs with same
    · show c.Placed (Function.update s.locked t false t')
      rw [nobody t']
      exact placed
    · show (s.calls t').Placed (Function.update s.locked t false t')
      rw [Function.update_of_ne same]
      exact inv.placed t'
  · exact inv.cv
  · intro t' g at_t'
    rw [State.lockRelease, goto_calls] at at_t'
    split_ifs at at_t' with same
    · rw [same]
      exact inv.generation t g (old g at_t')
    · exact inv.generation t' g at_t'

/-- Every sleeper counts the wake-up. -/
theorem Inv.wake (inv : Inv s) (t : τ) :
    Inv ({ s with cv := (s.cv + 1) % 0x100000000, wakes := fun t' => s.wakes t' + 1 }.goto t
      .idle) where
  exclusive := inv.exclusive
  free := inv.free
  one := inv.one
  placed t' := by
    rw [goto_calls]
    split_ifs with same
    · trivial
    · exact inv.placed t'
  cv := Nat.mod_lt _ (by decide)
  generation t' g at_t' := by
    rw [goto_calls] at at_t'
    split_ifs at at_t' with same
    · rcases at_t' with at_t' | at_t' <;> cases at_t'
    · obtain ⟨small, eq⟩ := inv.generation t' g at_t'
      refine ⟨small, ?_⟩
      show (s.cv + 1) % 0x100000000 = (g + (s.wakes t' + 1)) % 0x100000000
      omega

/-- The generation is loaded while the thread has the lock. -/
theorem Inv.load (inv : Inv s) (locked : s.locked t = true) :
    Inv ({ s with wakes := Function.update s.wakes t 0 }.goto t (.unlock s.cv)) where
  exclusive := inv.exclusive
  free := inv.free
  one := inv.one
  placed t' := by
    rw [goto_calls]
    split_ifs with same
    · rw [same]
      exact locked
    · exact inv.placed t'
  cv := inv.cv
  generation t' g at_t' := by
    rw [goto_calls] at at_t'
    split_ifs at at_t' with same
    · rcases at_t' with at_t' | at_t'
      · cases at_t'
        refine ⟨inv.cv, ?_⟩
        show s.cv = (s.cv + Function.update s.wakes t 0 t') % 0x100000000
        rw [same, Function.update_self, Nat.add_zero, Nat.mod_eq_of_lt inv.cv]
      · cases at_t'
    · obtain ⟨small, eq⟩ := inv.generation t' g at_t'
      refine ⟨small, ?_⟩
      show s.cv = (g + Function.update s.wakes t 0 t') % 0x100000000
      rw [Function.update_of_ne same]
      exact eq

theorem step_go (s : State τ) (t : τ) (expired : Bool) :
    step s (t, .go expired) = s.go t expired (s.calls t) := by
  rw [step.eq_def]
  cases s.calls t <;> rfl

theorem Inv.go (inv : Inv s) {expired : Bool}
    (stepped : s.go t expired (s.calls t) = some s') : Inv s' := by
  have placed := inv.placed t
  cases at_t : s.calls t with
  | idle =>
    rw [at_t] at stepped
    cases stepped
  | acquire =>
    rw [at_t] at stepped
    cases stepped
    exact inv.compareSwap trivial nofun
  | tryAcquire =>
    rw [at_t] at stepped
    cases stepped
    exact inv.compareSwap trivial nofun
  | release =>
    rw [at_t] at stepped placed
    cases stepped
    exact inv.lockRelease placed trivial nofun
  | wake =>
    rw [at_t] at stepped
    cases stepped
    exact inv.wake t
  | sleep =>
    rw [at_t] at stepped placed
    cases stepped
    exact inv.load placed
  | unlock g =>
    rw [at_t] at stepped placed
    cases stepped
    refine inv.lockRelease placed rfl fun g' at_g => .inl ?_
    rcases at_g with at_g | at_g <;> cases at_g
    exact at_t
  | sleeping g =>
    rw [at_t, State.go] at stepped
    rw [at_t] at placed
    split_ifs at stepped with same expired
    · cases stepped
      exact inv.goto placed nofun
    · cases stepped
      refine inv.goto placed fun g' at_g => .inr ?_
      rcases at_g with at_g | at_g <;> cases at_g
      exact at_t
    · cases stepped
      exact inv.goto placed nofun
  | acquireAgain fOk =>
    rw [at_t] at stepped placed
    cases stepped
    exact inv.compareSwap placed nofun

theorem Inv.step (inv : Inv s) {op : τ × Action} (fits : StepFits s op)
    (stepped : SrwLock.step s op = some s') : Inv s' := by
  obtain ⟨t, action⟩ := op
  cases action with
  | go expired =>
    rw [step_go] at stepped
    exact inv.go stepped
  | acquire | tryAcquire | wake =>
    cases at_t : s.calls t <;> simp only [SrwLock.step, at_t, reduceCtorEq] at stepped
    cases stepped
    exact inv.goto trivial nofun
  | release =>
    cases at_t : s.calls t <;> simp only [SrwLock.step, at_t, reduceCtorEq] at stepped
    cases stepped
    exact inv.goto (fits (.inl rfl)) nofun
  | sleep =>
    cases at_t : s.calls t <;> simp only [SrwLock.step, at_t, reduceCtorEq] at stepped
    cases stepped
    exact inv.goto (fits (.inr rfl)) nofun

theorem init_inv : Inv (init : State τ) where
  exclusive _ _ locked := nomatch locked
  free := iff_of_true rfl fun _ => rfl
  one := .inl rfl
  placed _ := trivial
  cv := Nat.succ_pos 0xffffffff
  generation _ _ at_t := at_t.elim nofun nofun

theorem Inv.promised (inv : Inv s) : Promised s where
  exclusive := inv.exclusive
  word := inv.one
  free := inv.free
  told t g at_t few expired := by
    obtain ⟨small, eq⟩ := inv.generation t g (.inr at_t)
    rw [step_go, at_t, State.go]
    by_cases woken : 0 < s.wakes t
    · rw [if_neg (by omega), if_pos woken]
    · rw [if_pos (by omega), if_neg woken]
      cases expired <;> rfl

theorem srwLock_promised {ops : List (τ × Action)}
    (meets : StepRun.Meets step StepFits init ops) (ran : StepRun.run step ops init = some s) :
    Promised s :=
  (StepRun.run_keeps (fun _ _ _ inv fits stepped => inv.step fits stepped) init_inv meets
    ran).promised

/-- A sleeper, and a thread that takes the lock behind it and wakes it up. -/
def wakeUp : List (Bool × Action) :=
  let sleep := [(false, .acquire), (false, .go false), (false, .sleep), (false, .go false),
    (false, .go false), (false, .go false)]
  let wake := [(true, .acquire), (true, .go false), (true, .wake), (true, .go false)]
  sleep ++ wake

theorem srwLock_promised_wakeUp :
    ∃ s, StepRun.run step wakeUp init = some s ∧ Promised s :=
  ⟨_, rfl, srwLock_promised (by decide : StepRun.Meets step StepFits init wakeUp) rfl⟩

end Odin32.SrwLock
