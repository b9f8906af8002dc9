import Odin32.TickCount
import Mathlib.Tactic.Common

/-! # Interleavings of the tick count

The high word is the period of the last stored reading, less one while the thread that stored
the first reading of a new period has not counted it. A thread that loads `lastlo` after
another one stored a later reading takes that for a wrap. -/

set_option autoImplicit false

namespace Odin32.TickCount

/-! ## Counts and their halves -/

theorem period_pos : 0 < period := by decide

theorem wrap_period {seen count : ℕ} (le : seen ≤ count) (near : count < seen + period)
    (wraps : count % period < seen % period) : count / period = seen / period + 1 := by
  unfold period at *
  omega

theorem same_period {seen count : ℕ} (le : seen ≤ count) (near : count < seen + period)
    (wraps : ¬ count % period < seen % period) : count / period = seen / period := by
  unfold period at *
  omega

theorem high_low (count : ℕ) : count / period * period + count % period = count :=
  Nat.div_add_mod' count period

theorem period_lt {count : ℕ} (bound : count < period * period) : count / period < period :=
  Nat.div_lt_of_lt_mul bound

/-! ## What is kept -/

variable {τ : Type} {s s' : State τ} {t : τ} {c : Call}

/-- What the variables of a call say in a state. -/
def CallOk (now stored : ℕ) : Call → Prop
  | .idle => True
  | .read count => count ≤ now
  | .loaded count prev seen =>
    prev = seen % period ∧ seen ≤ stored ∧ seen ≤ count ∧ count < seen + period ∧ count ≤ now
  | .swapped count _ => count ≤ stored
  | .returning count value => value = count ∧ count ≤ stored

theorem CallOk.mono {now now' stored stored' : ℕ} (ok : CallOk now stored c)
    (later : now ≤ now') (more : stored ≤ stored') : CallOk now' stored' c := by
  cases c with
  | idle => trivial
  | read count => exact Nat.le_trans ok later
  | loaded count prev seen =>
    obtain ⟨eq, le, before, near, old⟩ := ok
    exact ⟨eq, Nat.le_trans le more, before, near, Nat.le_trans old later⟩
  | swapped count wrapped => exact Nat.le_trans ok more
  | returning count value => exact ⟨ok.1, Nat.le_trans ok.2 more⟩

/-- A thread has stored the first reading of a new period. -/
structure Pending (s : State τ) (t : τ) (count : ℕ) : Prop where
  period : count / period = s.stored / period
  high : s.hiword + 1 = s.stored / TickCount.period
  runs : s.lastRun / TickCount.period < s.stored / TickCount.period
  replies : ∀ t' c v, s.calls t' = .returning c v → c / TickCount.period < s.stored / TickCount.period
  only : ∀ t' c, s.calls t' = .swapped c true → t' = t

/-- The events so far. -/
structure Logged (s : State τ) : Prop where
  exact : ∀ t count value, .returned t count value ∈ s.events →
    value = count ∧ count ≤ s.now ∧ .read t count ∈ s.events
  ordered : ∀ before t₁ c₁ v₁ rest, s.events = before ++ .returned t₁ c₁ v₁ :: rest →
    ∀ t₂ c₂, .read t₂ c₂ ∈ rest → c₁ ≤ c₂

structure Inv (s : State τ) : Prop where
  low : s.lastlo = s.stored % period
  seen : s.stored ≤ s.now
  ran : s.lastRun ≤ s.stored
  fresh : s.now < s.lastRun + period
  bound : s.now < period * period
  counted : Counted s → s.hiword = s.stored / period
  pending : ∀ t count, s.calls t = .swapped count true → Pending s t count
  calls : ∀ t, CallOk s.now s.stored (s.calls t)
  begun : ∀ t count, (s.calls t).count = some count → .read t count ∈ s.events
  logged : Logged s

theorem counted_iff : Counted s ↔ ∀ t count, s.calls t ≠ .swapped count true := by
  constructor
  · intro counted t count here
    have settled := counted t
    rw [here] at settled
    cases settled
  · intro none t
    cases at_t : s.calls t with
    | swapped count wrapped =>
      cases wrapped with
      | true => exact absurd at_t (none t count)
      | false => rfl
    | _ => rfl

theorem Logged.promised (logged : Logged s) : Promised s.events where
  exact t count value mem :=
    have out := logged.exact t count value mem
    ⟨out.1, out.2.2⟩
  ordered before between after t₁ c₁ v₁ t₂ c₂ v₂ split mem := by
    have first : .returned t₁ c₁ v₁ ∈ s.events := by
      rw [split]
      simp
    have second : .returned t₂ c₂ v₂ ∈ s.events := by
      rw [split]
      simp [mem]
    rw [(logged.exact t₁ c₁ v₁ first).1, (logged.exact t₂ c₂ v₂ second).1]
    refine logged.ordered before t₁ c₁ v₁ (between ++ .read t₂ c₂ :: after) ?_ t₂ c₂ (by simp)
    rw [split]
    simp

theorem Logged.later (logged : Logged s) (same : s'.events = s.events) (le : s.now ≤ s'.now) :
    Logged s' where
  exact t count value mem := by
    rw [same] at mem
    obtain ⟨eq, old, began⟩ := logged.exact t count value mem
    exact ⟨eq, Nat.le_trans old le, same ▸ began⟩
  ordered before t₁ c₁ v₁ rest split := logged.ordered before t₁ c₁ v₁ rest (same ▸ split)

theorem Logged.snoc (logged : Logged s) {e : Event τ} (same : s'.events = s.events ++ [e])
    (now : s'.now = s.now)
    (reply : ∀ t count value, e = .returned t count value →
      value = count ∧ count ≤ s.now ∧ .read t count ∈ s.events)
    (clock : ∀ t count, e = .read t count → count = s.now) : Logged s' where
  exact t count value mem := by
    rw [same] at mem
    rw [now]
    have out : value = count ∧ count ≤ s.now ∧ .read t count ∈ s.events := by
      rcases List.mem_append.mp mem with early | late
      · exact logged.exact t count value early
      · exact reply t count value (List.mem_singleton.mp late).symm
    refine ⟨out.1, out.2.1, ?_⟩
    rw [same]
    exact List.mem_append_left _ out.2.2
  ordered before t₁ c₁ v₁ rest split t₂ c₂ mem := by
    rw [same] at split
    rcases List.eq_nil_or_concat rest with rfl | ⟨rest, last, rfl⟩
    · cases mem
    · have eq : s.events ++ [e] = (before ++ .returned t₁ c₁ v₁ :: rest) ++ [last] := by
        rw [split]
        simp
      obtain ⟨split', ends⟩ := List.append_inj' eq rfl
      obtain rfl : e = last := by simpa using ends
      rcases List.mem_append.mp (List.concat_eq_append ▸ mem) with early | late
      · exact logged.ordered before t₁ c₁ v₁ rest split' t₂ c₂ early
      · rw [clock t₂ c₂ (List.mem_singleton.mp late).symm]
        exact (logged.exact t₁ c₁ v₁ (by rw [split']; simp)).2.1

variable [DecidableEq τ]

theorem goto_calls (s : State τ) (t t' : τ) (c : Call) :
    (s.goto t c).calls t' = if t' = t then c else s.calls t' := by
  simp only [State.goto, Function.update_apply]

theorem Inv.goto (inv : Inv s) (at_t : s.calls t = c) {d : Call}
    (ok : CallOk s.now s.stored d) (settled : ∀ count, c ≠ .swapped count true)
    (settled' : ∀ count, d ≠ .swapped count true)
    (begun : ∀ count, d.count = some count → .read t count ∈ s.events)
    (reply : ∀ count value, d = .returning count value → Counted s) : Inv (s.goto t d) where
  low := inv.low
  seen := inv.seen
  ran := inv.ran
  fresh := inv.fresh
  bound := inv.bound
  counted all := by
    refine inv.counted (counted_iff.mpr fun t' count here => ?_)
    have kept := counted_iff.mp all t' count
    rw [goto_calls] at kept
    by_cases eq : t' = t
    · subst eq
      exact settled count (at_t.symm.trans here)
    · rw [if_neg eq] at kept
      exact kept here
  pending t' count here := by
    rw [goto_calls] at here
    by_cases eq : t' = t
    · rw [if_pos eq] at here
      exact absurd here (settled' count)
    · rw [if_neg eq] at here
      have pending := inv.pending t' count here
      refine ⟨pending.period, pending.high, pending.runs, fun t'' c₁ v returning => ?_,
        fun t'' c₁ swapped => ?_⟩
      · rw [goto_calls] at returning
        by_cases eq' : t'' = t
        · rw [if_pos eq'] at returning
          exact absurd here (counted_iff.mp (reply c₁ v returning) t' count)
        · rw [if_neg eq'] at returning
          exact pending.replies t'' c₁ v returning
      · rw [goto_calls] at swapped
        by_cases eq' : t'' = t
        · rw [if_pos eq'] at swapped
          exact absurd swapped (settled' c₁)
        · rw [if_neg eq'] at swapped
          exact pending.only t'' c₁ swapped
  calls t' := by
    rw [goto_calls]
    by_cases eq : t' = t
    · rw [if_pos eq]
      exact ok
    · rw [if_neg eq]
      exact inv.calls t'
  begun t' count here := by
    rw [goto_calls] at here
    by_cases eq : t' = t
    · rw [if_pos eq] at here
      exact eq ▸ begun count here
    · rw [if_neg eq] at here
      exact inv.begun t' count here
  logged := inv.logged.later rfl (Nat.le_refl _)

omit [DecidableEq τ] in
theorem Inv.record (inv : Inv s) {events : List (Event τ)} (more : s.events ⊆ events)
    (logged : Logged { s with events := events }) : Inv { s with events := events } where
  low := inv.low
  seen := inv.seen
  ran := inv.ran
  fresh := inv.fresh
  bound := inv.bound
  counted := inv.counted
  pending t count here :=
    have pending := inv.pending t count here
    ⟨pending.period, pending.high, pending.runs, pending.replies, pending.only⟩
  calls := inv.calls
  begun t count here := more (inv.begun t count here)
  logged := logged

omit [DecidableEq τ] in
theorem Inv.tick (inv : Inv s) {ms : ℕ} (bound : s.now + ms < period * period)
    (frequent : s.now + ms < s.lastRun + period) : Inv { s with now := s.now + ms } where
  low := inv.low
  seen := Nat.le_trans inv.seen (Nat.le_add_right ..)
  ran := inv.ran
  fresh := frequent
  bound := bound
  counted := inv.counted
  pending t count here :=
    have pending := inv.pending t count here
    ⟨pending.period, pending.high, pending.runs, pending.replies, pending.only⟩
  calls t := (inv.calls t).mono (Nat.le_add_right ..) (Nat.le_refl _)
  begun := inv.begun
  logged := inv.logged.later rfl (Nat.le_add_right ..)

omit [DecidableEq τ] in
theorem Inv.counted_of_wrap (inv : Inv s) {count : ℕ} (old : count ≤ s.now)
    (next : count / period = s.stored / period + 1) : Counted s := by
  refine counted_iff.mpr fun t first here => ?_
  have runs := (inv.pending t first here).runs
  have fresh := inv.fresh
  have up : count / period ≤ (s.lastRun + period) / period :=
    Nat.div_le_div_right (Nat.le_of_lt (Nat.lt_of_le_of_lt old fresh))
  rw [Nat.add_div_right _ period_pos] at up
  omega

theorem Inv.store (inv : Inv s) {count prev : ℕ}
    (at_t : s.calls t = .loaded count prev s.stored) :
    Inv ({ s with lastlo := count % period, stored := count }.goto t
      (.swapped count (decide (count % period < prev)))) := by
  have ok := inv.calls t
  rw [at_t] at ok
  obtain ⟨rfl, -, before, near, old⟩ := ok
  have calls' : ∀ t', CallOk s.now count (({ s with
      lastlo := count % period, stored := count }.goto t
      (.swapped count (decide (count % period < s.stored % period)))).calls t') := by
    intro t'
    rw [goto_calls]
    by_cases eq : t' = t
    · rw [if_pos eq]
      exact Nat.le_refl count
    · rw [if_neg eq]
      exact (inv.calls t').mono (Nat.le_refl _) before
  have other : ∀ t' first, t' ≠ t → (({ s with
      lastlo := count % period, stored := count }.goto t
      (.swapped count (decide (count % period < s.stored % period)))).calls t' =
        .swapped first true) → s.calls t' = .swapped first true := by
    intro t' first ne here
    rwa [goto_calls, if_neg ne] at here
  have begun' : ∀ t' first, (({ s with
      lastlo := count % period, stored := count }.goto t
      (.swapped count (decide (count % period < s.stored % period)))).calls t').count =
        some first → .read t' first ∈ s.events := by
    intro t' first here
    rw [goto_calls] at here
    by_cases eq : t' = t
    · rw [if_pos eq] at here
      exact eq ▸ inv.begun t first (by rw [at_t]; exact here)
    · rw [if_neg eq] at here
      exact inv.begun t' first here
  by_cases wraps : count % period < s.stored % period
  · have next := wrap_period before near wraps
    have grows : s.stored / period < count / period := by
      rw [next]
      exact Nat.lt_succ_self _
    have counted := inv.counted_of_wrap old next
    have alone : ∀ t' first, ({ s with lastlo := count % period, stored := count }.goto t
        (.swapped count (decide (count % period < s.stored % period)))).calls t' =
        .swapped first true → t' = t := by
      intro t' first here
      by_contra ne
      exact counted_iff.mp counted t' first (other t' first ne here)
    have high := inv.counted counted
    refine ⟨rfl, old, Nat.le_trans inv.ran before, inv.fresh, inv.bound, ?_, ?_, calls',
      begun', inv.logged.later rfl (Nat.le_refl _)⟩
    · intro all
      refine absurd ?_ (counted_iff.mp all t count)
      rw [goto_calls, if_pos rfl, decide_eq_true wraps]
    · intro t' first here
      have eq := alone t' first here
      subst eq
      rw [goto_calls, if_pos rfl] at here
      obtain ⟨rfl, -⟩ : count = first ∧ _ := by simpa using here
      refine ⟨rfl, ?_, ?_, ?_, alone⟩
      · exact (congrArg (· + 1) high).trans next.symm
      · have runs := Nat.div_le_div_right (c := period) inv.ran
        exact Nat.lt_of_le_of_lt runs grows
      · intro t'' c₁ v returning
        rw [goto_calls] at returning
        by_cases eq : t'' = t'
        · rw [if_pos eq] at returning
          cases returning
        · rw [if_neg eq] at returning
          have answered := inv.calls t''
          rw [returning] at answered
          have le := Nat.div_le_div_right (c := period) answered.2
          exact Nat.lt_of_le_of_lt le grows
  · have same := same_period before near wraps
    have settled : ∀ t' first, ({ s with lastlo := count % period, stored := count }.goto t
        (.swapped count (decide (count % period < s.stored % period)))).calls t' =
        .swapped first true → t' ≠ t := by
      rintro t' first here rfl
      rw [goto_calls, if_pos rfl, decide_eq_false wraps] at here
      cases here
    refine ⟨rfl, old, Nat.le_trans inv.ran before, inv.fresh, inv.bound, ?_, ?_, calls',
      begun', inv.logged.later rfl (Nat.le_refl _)⟩
    · intro all
      refine (inv.counted (counted_iff.mpr fun t' first here => ?_)).trans same.symm
      by_cases eq : t' = t
      · subst eq
        rw [at_t] at here
        cases here
      · refine counted_iff.mp all t' first ?_
        rw [goto_calls, if_neg eq]
        exact here
    · intro t' first here
      have pending := inv.pending t' first (other t' first (settled t' first here) here)
      refine ⟨pending.period.trans same.symm, pending.high.trans same.symm, ?_, ?_, ?_⟩
      · exact Nat.lt_of_lt_of_eq pending.runs same.symm
      · intro t'' c₁ v returning
        rw [goto_calls] at returning
        by_cases eq : t'' = t
        · rw [if_pos eq] at returning
          cases returning
        · rw [if_neg eq] at returning
          exact Nat.lt_of_lt_of_eq (pending.replies t'' c₁ v returning) same.symm
      · intro t'' c₁ swapped
        exact pending.only t'' c₁ (other t'' c₁ (settled t'' c₁ swapped) swapped)

theorem Inv.count (inv : Inv s) {count : ℕ} (at_t : s.calls t = .swapped count true) :
    Inv ({ s with hiword := (s.hiword + 1) % period }.goto t
      (.returning count ((s.hiword + 1) % period * period + count % period))) := by
  have pending := inv.pending t count at_t
  have counted : (s.hiword + 1) % period = s.stored / period := by
    rw [pending.high]
    exact Nat.mod_eq_of_lt (period_lt (Nat.lt_of_le_of_lt inv.seen inv.bound))
  have le : count ≤ s.stored := by
    have ok := inv.calls t
    rw [at_t] at ok
    exact ok
  have settled : ∀ t' first, ({ s with hiword := (s.hiword + 1) % period }.goto t
      (.returning count ((s.hiword + 1) % period * period + count % period))).calls t' ≠
      .swapped first true := by
    intro t' first here
    rw [goto_calls] at here
    by_cases eq : t' = t
    · rw [if_pos eq] at here
      cases here
    · rw [if_neg eq] at here
      exact eq (pending.only t' first here)
  refine ⟨inv.low, inv.seen, inv.ran, inv.fresh, inv.bound, fun _ => counted, ?_, ?_, ?_,
    inv.logged.later rfl (Nat.le_refl _)⟩
  · exact fun t' first here => absurd here (settled t' first)
  · intro t'
    rw [goto_calls]
    by_cases eq : t' = t
    · rw [if_pos eq]
      refine ⟨?_, le⟩
      rw [counted, ← pending.period, high_low]
    · rw [if_neg eq]
      exact inv.calls t'
  · intro t' first here
    rw [goto_calls] at here
    by_cases eq : t' = t
    · rw [if_pos eq] at here
      exact eq ▸ inv.begun t first (by rw [at_t]; exact here)
    · rw [if_neg eq] at here
      exact inv.begun t' first here

theorem Inv.leave (inv : Inv s) {count value : ℕ} (at_t : s.calls t = .returning count value) :
    Inv ({ s with
      lastRun := max s.lastRun count
      events := s.events ++ [Event.returned t count value] }.goto t .idle) := by
  have ok := inv.calls t
  rw [at_t] at ok
  obtain ⟨rfl, le⟩ := ok
  have logged : Logged { s with events := s.events ++ [.returned t value value] } := by
    refine inv.logged.snoc rfl rfl ?_ (by simp)
    intro t' count' value' eq
    obtain ⟨-, rfl, rfl⟩ : t = t' ∧ value = count' ∧ value = value' := by simpa using eq
    obtain rfl : t = t' := by simpa using eq
    exact ⟨rfl, Nat.le_trans le inv.seen, inv.begun t value (by rw [at_t]; rfl)⟩
  have left := (inv.record (by simp) logged).goto (d := .idle) at_t trivial (by simp) (by simp)
    (by simp [Call.count]) (by simp)
  refine ⟨left.low, left.seen, Nat.max_le.mpr ⟨inv.ran, le⟩, ?_, left.bound, left.counted, ?_,
    left.calls, left.begun, left.logged.later rfl (Nat.le_refl _)⟩
  · exact Nat.lt_of_lt_of_le inv.fresh (Nat.add_le_add_right (Nat.le_max_left ..) period)
  · intro t' first here
    have pending := left.pending t' first here
    refine ⟨pending.period, pending.high, ?_, pending.replies, pending.only⟩
    have first' : s.calls t' = .swapped first true := by
      rw [goto_calls] at here
      by_cases eq : t' = t
      · rw [if_pos eq] at here
        cases here
      · rwa [if_neg eq] at here
    have mine := (inv.pending t' first first').replies t value value at_t
    rcases Nat.le_total s.lastRun value with more | less
    · rw [Nat.max_eq_right more]
      exact mine
    · rw [Nat.max_eq_left less]
      exact pending.runs

/-! ## Runs -/

theorem step_inv {op : Action τ} (inv : Inv s) (frequent : Frequent s op) (fits : StepFits s op)
    (stepped : step s op = some s') : Inv s' := by
  cases op with
  | tick ms =>
    simp only [step] at stepped
    split at stepped
    · rename_i bound
      obtain rfl := Option.some.inj stepped
      exact inv.tick bound frequent
    · cases stepped
  | read t =>
    cases at_t : s.calls t with
    | idle =>
      simp only [step, at_t] at stepped
      obtain rfl := Option.some.inj stepped
      have logged : Logged { s with events := s.events ++ [.read t s.now] } := by
        refine inv.logged.snoc rfl rfl (by simp) ?_
        intro t' count eq
        obtain ⟨-, rfl⟩ : t = t' ∧ s.now = count := by simpa using eq
        rfl
      exact (inv.record (by simp) logged).goto at_t (Nat.le_refl _) (by simp) (by simp)
        (by simp [Call.count]) (by simp)
    | _ => simp [step, at_t] at stepped
  | load t =>
    cases at_t : s.calls t with
    | read count =>
      simp only [step, at_t] at stepped
      obtain rfl := Option.some.inj stepped
      have old := inv.calls t
      rw [at_t] at old
      have near : count < s.stored + period := by
        have fresh := inv.fresh
        have ran := inv.ran
        have old' : count ≤ s.now := old
        omega
      have inTime : Call.loadsInTime s.stored (.read count) := by
        simpa only [StepFits, at_t] using fits
      exact inv.goto at_t ⟨inv.low, Nat.le_refl _, inTime, near, old⟩ (by simp) (by simp)
        (fun first here => inv.begun t first (by rw [at_t]; exact here)) (by simp)
    | _ => simp [step, at_t] at stepped
  | compareAndSwap t =>
    cases at_t : s.calls t with
    | loaded count prev seen =>
      simp only [step, at_t] at stepped
      obtain ⟨eq, le, before, near, old⟩ : CallOk s.now s.stored (.loaded count prev seen) :=
        at_t ▸ inv.calls t
      have inTime : Call.swapsInTime s.stored (.loaded count prev seen) := by
        simpa only [StepFits, at_t] using fits
      by_cases still : s.stored = seen
      · subst still
        rw [if_pos (inv.low.trans eq.symm)] at stepped
        obtain rfl := Option.some.inj stepped
        exact inv.store at_t
      · obtain ⟨noWrap, later, sameStored⟩ := inTime.resolve_left still
        have sameSeen := same_period before near (eq ▸ noWrap)
        have missed : s.lastlo ≠ prev := by
          intro hit
          apply still
          rw [← high_low s.stored, ← high_low seen, ← sameStored, ← sameSeen, ← inv.low, ← eq, hit]
        rw [if_neg missed] at stepped
        obtain rfl := Option.some.inj stepped
        refine inv.goto at_t later (by simp) (by simp [noWrap]) ?_ (by simp)
        exact fun first here => inv.begun t first (by rw [at_t]; exact here)
    | _ => simp [step, at_t] at stepped
  | high t =>
    cases at_t : s.calls t with
    | swapped count wrapped =>
      cases wrapped with
      | true =>
        simp only [step, at_t] at stepped
        obtain rfl := Option.some.inj stepped
        exact inv.count at_t
      | false =>
        simp only [step, at_t] at stepped
        obtain rfl := Option.some.inj stepped
        obtain ⟨same, counted⟩ : Call.readsInTime s (.swapped count false) := by
          simpa only [StepFits, at_t] using fits
        have le : CallOk s.now s.stored (.swapped count false) := at_t ▸ inv.calls t
        have exact : s.hiword * period + count % period = count := by
          rw [inv.counted counted, ← same, high_low]
        refine inv.goto at_t ⟨exact, le⟩ (by simp) (by simp) ?_ fun _ _ _ => counted
        exact fun first here => inv.begun t first (by rw [at_t]; exact here)
    | _ => simp [step, at_t] at stepped
  | leave t =>
    cases at_t : s.calls t with
    | returning count value =>
      simp only [step, at_t] at stepped
      obtain rfl := Option.some.inj stepped
      exact inv.leave at_t
    | _ => simp [step, at_t] at stepped

omit [DecidableEq τ] in
theorem inv_init : Inv (init : State τ) where
  low := rfl
  seen := Nat.le_refl 0
  ran := Nat.le_refl 0
  fresh := Nat.lt_of_lt_of_eq period_pos (Nat.zero_add period).symm
  bound := Nat.mul_pos period_pos period_pos
  counted _ := (Nat.zero_div period).symm
  pending t count here := by cases here
  calls t := trivial
  begun t count here := by cases here
  logged := by
    constructor
    · intro t count value mem
      cases mem
    · intro before t₁ c₁ v₁ rest split
      have lengths := congrArg List.length split
      simp [init] at lengths

/-- In every interleaving whose steps fit, with the function called often enough, each value
returned is the count of the clock reading of its call. -/
theorem tickCount_promised (ops : List (Action τ)) (s : State τ)
    (frequent : StepRun.Meets step Frequent init ops)
    (fits : StepRun.Meets step StepFits init ops)
    (ran : StepRun.run step ops init = some s) : Promised s.events := by
  have both := StepRun.meets_and frequent fits
  have inv : Inv s := StepRun.run_keeps
    (fun _ _ _ inv ok stepped => step_inv inv ok.1 ok.2 stepped) inv_init both ran
  exact inv.logged.promised

/-- Two calls in turn, the second in a new period. -/
def inTurn : List (Action Bool) :=
  [.tick 4294967295, .read true, .load true, .compareAndSwap true, .high true, .leave true,
    .tick 2, .read false, .load false, .compareAndSwap false, .high false, .leave false]

instance (s : State Bool) : ∀ op : Action Bool, Decidable (Frequent s op)
  | .tick ms => inferInstanceAs (Decidable (s.now + ms < s.lastRun + period))
  | .read _ | .load _ | .compareAndSwap _ | .high _ | .leave _ => isTrue trivial

instance (s : State Bool) : Decidable (Counted s) :=
  inferInstanceAs (Decidable (∀ t, (s.calls t).uncounted = false))

instance (stored : ℕ) : ∀ c : Call, Decidable (c.loadsInTime stored)
  | .read count => inferInstanceAs (Decidable (stored ≤ count))
  | .idle | .loaded _ _ _ | .swapped _ _ | .returning _ _ => isTrue trivial

instance (stored : ℕ) : ∀ c : Call, Decidable (c.swapsInTime stored)
  | .loaded count prev seen => inferInstanceAs (Decidable (stored = seen ∨
      (¬ count % period < prev ∧ count ≤ stored ∧ count / period = stored / period)))
  | .idle | .read _ | .swapped _ _ | .returning _ _ => isTrue trivial

instance (s : State Bool) : ∀ c : Call, Decidable (c.readsInTime s)
  | .swapped count false =>
    inferInstanceAs (Decidable (count / period = s.stored / period ∧ Counted s))
  | .idle | .read _ | .loaded _ _ _ | .swapped _ true | .returning _ _ => isTrue trivial

instance (s : State Bool) : ∀ op : Action Bool, Decidable (StepFits s op)
  | .load t => inferInstanceAs (Decidable ((s.calls t).loadsInTime s.stored))
  | .compareAndSwap t => inferInstanceAs (Decidable ((s.calls t).swapsInTime s.stored))
  | .high t => inferInstanceAs (Decidable ((s.calls t).readsInTime s))
  | .tick _ | .read _ | .leave _ => isTrue trivial

theorem inTurn_frequent : StepRun.Meets step Frequent init inTurn := by decide +kernel

theorem inTurn_fits : StepRun.Meets step StepFits init inTurn := by decide +kernel

theorem inTurn_events : (StepRun.run step inTurn init).map State.events = some
    [.read true 4294967295, .returned true 4294967295 4294967295, .read false 4294967297,
      .returned false 4294967297 4294967297] := by
  decide +kernel

theorem tickCount_promised_inTurn :
    ∃ s, StepRun.run step inTurn init = some s ∧ Promised s.events := by
  obtain ⟨s, ran, -⟩ := Option.map_eq_some_iff.mp inTurn_events
  exact ⟨s, ran, tickCount_promised inTurn s inTurn_frequent inTurn_fits ran⟩

/-- The clock is read, another call passes, and its later reading is taken for a wrap. -/
def overtaken : List (Action Bool) :=
  [.tick 100, .read true, .tick 1, .read false, .load false, .compareAndSwap false, .high false,
    .leave false, .load true, .compareAndSwap true, .high true, .leave true]

theorem overtaken_frequent : StepRun.Meets step Frequent init overtaken := by
  decide +kernel

theorem overtaken_events : (StepRun.run step overtaken init).map State.events = some
    [.read true 100, .read false 101, .returned false 101 101, .returned true 100 4294967396] := by
  decide +kernel

theorem overtaken_not_promised : ¬ ∀ (ops : List (Action Bool)) (s : State Bool),
    StepRun.Meets step Frequent init ops → StepRun.run step ops init = some s →
      Promised s.events := by
  intro all
  obtain ⟨s, ran, events⟩ := Option.map_eq_some_iff.mp overtaken_events
  have promised := all overtaken s overtaken_frequent ran
  rw [events] at promised
  have exact := (promised.exact true 100 4294967396 (by simp)).1
  exact absurd exact (by decide)

end Odin32.TickCount
