import Odin32.InitOnce
import Mathlib.Tactic.Common

/-! # Interleavings of the one-time initialisation

The word is 1 exactly while one thread is between its compare-and-swap and the store of the
outcome. A context with one of its two lowest bits set is refused after the callback has
succeeded, and the word stays 1 for ever. -/

set_option autoImplicit false

namespace Odin32.InitOnce

/-! ## The word -/

theorem or_two_bit (context : Word) : (context ||| 2) &&& 2 = 2 := by
  ext i hi
  simp only [BitVec.getElem_and, BitVec.getElem_or]
  cases context[i] <;> simp

theorem or_two_ne_zero (context : Word) : context ||| 2 ≠ 0 := by
  intro eq
  have bit := or_two_bit context
  rw [eq] at bit
  exact absurd bit (by decide)

theorem or_two_ne_one (context : Word) : context ||| 2 ≠ 1 := by
  intro eq
  have bit := or_two_bit context
  rw [eq] at bit
  exact absurd bit (by decide)

theorem or_two_and {context : Word} (low : context &&& 3 = 0) :
    (context ||| 2) &&& ~~~3 = context := by
  have split : context = context &&& ~~~3 := by
    have whole : context &&& (3 ||| ~~~3) = (context &&& 3) ||| (context &&& ~~~3) := by
      ext i hi
      simp only [BitVec.getElem_and, BitVec.getElem_or, BitVec.getElem_not]
      cases context[i] <;> simp
    have ones : (3 ||| ~~~3 : Word) = BitVec.allOnes 32 := by decide
    rw [low, ones, BitVec.and_allOnes] at whole
    simpa using whole
  calc (context ||| 2) &&& ~~~3 = (context &&& ~~~3) ||| (2 &&& ~~~3) := by
        ext i hi
        simp only [BitVec.getElem_and, BitVec.getElem_or, BitVec.getElem_not]
        cases context[i] <;> simp
    _ = context := by rw [← split]; simp

theorem or_two_inj {c c' : Word} (low : c &&& 3 = 0) (low' : c' &&& 3 = 0)
    (eq : c ||| 2 = c' ||| 2) : c = c' := by
  rw [← or_two_and low, eq, or_two_and low']

theorem beginLoaded_zero (state : Word) : beginLoaded 0 state =
    if state = 0 then .compareAndSwap else if state = 1 then .sleep
    else .complete (state &&& ~~~3) := by
  have noCheck : ¬ (0 : Word) &&& checkOnly ≠ 0 := by decide
  have noAsync : ¬ (0 : Word) &&& async ≠ 0 := by decide
  rw [beginLoaded, if_neg noCheck, if_neg noAsync]
  by_cases zero : state = 0
  · rw [if_pos (Or.inl zero), if_pos zero, if_pos zero]
  · by_cases one : state = 1
    · rw [if_pos (Or.inr one), if_neg zero, if_neg zero, if_pos one]
    · rw [if_neg (not_or.mpr ⟨zero, one⟩), if_neg zero, if_neg one]

theorem completeStore_failed : completeStore initFailed 0 = some 0 := by decide

theorem completeStore_zero (context : Word) : completeStore 0 context =
    if context &&& 3 = 0 then some (context ||| 2) else none := by
  have noFlags : ¬ (0 : Word) &&& ~~~(async ||| initFailed) ≠ 0 := by decide
  have noFailed : ¬ (0 : Word) &&& initFailed ≠ 0 := by decide
  rw [completeStore, if_neg noFailed]
  by_cases low : context &&& 3 = 0
  · rw [if_pos low, if_neg]
    rintro (flags | notLow | ⟨failed, -⟩)
    · exact noFlags flags
    · exact notLow low
    · exact noFailed failed
  · rw [if_neg low, if_pos (Or.inr (Or.inl low))]

/-! ## What is kept -/

variable {τ : Type} {s s' : State τ} {t : τ} {c c' : Call} {e : Event τ}

structure Inv (s : State τ) : Prop where
  after : AfterSuccess s.events
  unique : ∀ t t', (s.calls t).holds = true → (s.calls t').holds = true → t = t'
  held : ∀ t, (s.calls t).holds = true → s.once = 1
  free : s.once = 1 → ∃ t, (s.calls t).holds = true
  word : s.once = 0 ∨ s.once = 1 ∨ ∃ context, context &&& 3 = 0 ∧ s.once = context ||| 2
  success : ∀ t context, .succeeded t context ∈ s.events → context &&& 3 = 0 ∧
    (s.once = context ||| 2 ∨ ∃ t', s.calls t' = .completing context)
  completing : ∀ t context, s.calls t = .completing context → context &&& 3 = 0
  replies : ∀ t context, s.calls t = .returning true context →
    context &&& 3 = 0 ∧ s.once = context ||| 2

theorem Inv.noSuccess (inv : Inv s) (at_t : s.calls t = c) (holds : c.holds = true)
    (other : ∀ context, c ≠ .completing context) (t' : τ) (context : Word) :
    .succeeded t' context ∉ s.events := by
  intro mem
  have one := inv.held t (by rw [at_t, holds])
  rcases (inv.success t' context mem).2 with stored | ⟨t'', storing⟩
  · exact or_two_ne_one context (stored.symm.trans one)
  · obtain rfl : t'' = t :=
      inv.unique t'' t (by rw [storing]; rfl) (by rw [at_t, holds])
    exact other context (at_t.symm.trans storing)

theorem Inv.promised (inv : Inv s) : Promised s where
  exclusive t t' running running' :=
    inv.unique t t' (by rw [running]; rfl) (by rw [running']; rfl)
  once := inv.after
  released t context returning one := by
    obtain ⟨t', holds⟩ := inv.free one
    refine ⟨t', ?_, holds⟩
    rintro rfl
    rw [returning] at holds
    cases holds

theorem afterSuccess_snoc {events : List (Event τ)} (after : AfterSuccess events)
    (start : ∀ t, e = .started t → ∀ t' context, .succeeded t' context ∉ events)
    (reply : ∀ t context, e = .returned t true context →
      ∀ t' context', .succeeded t' context' ∈ events → context = context') :
    AfterSuccess (events ++ [e]) := by
  intro before t context rest split
  rcases List.eq_nil_or_concat rest with rfl | ⟨rest, last, rfl⟩
  · exact ⟨fun _ mem => absurd mem List.not_mem_nil, fun _ _ mem => absurd mem List.not_mem_nil⟩
  · have eq : events ++ [e] = (before ++ .succeeded t context :: rest) ++ [last] := by
      rw [split]
      simp
    obtain ⟨rfl, ends⟩ := List.append_inj' eq rfl
    obtain rfl : e = last := by simpa using ends
    obtain ⟨noStart, same⟩ := after before t context rest rfl
    have mem : .succeeded t context ∈ before ++ .succeeded t context :: rest := by simp
    refine ⟨fun t' at_t' => ?_, fun t' context' at_t' => ?_⟩
    · rcases List.mem_append.mp (List.concat_eq_append ▸ at_t') with early | late
      · exact noStart t' early
      · exact start t' (List.mem_singleton.mp late).symm t context mem
    · rcases List.mem_append.mp (List.concat_eq_append ▸ at_t') with early | late
      · exact same t' context' early
      · exact reply t' context' (List.mem_singleton.mp late).symm t context mem

variable [DecidableEq τ]

theorem goto_calls (s : State τ) (t t' : τ) (c : Call) :
    (s.goto t c).calls t' = if t' = t then c else s.calls t' := by
  simp only [State.goto, Function.update_apply]

theorem Inv.goto (inv : Inv s) (at_t : s.calls t = c) (same : c'.holds = c.holds)
    (other : ∀ context, c ≠ .completing context ∧ c' ≠ .completing context)
    (reply : ∀ context, c' = .returning true context →
      context &&& 3 = 0 ∧ s.once = context ||| 2) : Inv (s.goto t c') := by
  have holds : ∀ t', ((s.goto t c').calls t').holds = (s.calls t').holds := by
    intro t'
    rw [goto_calls]
    by_cases eq : t' = t
    · rw [if_pos eq, eq, at_t, same]
    · rw [if_neg eq]
  constructor
  · exact inv.after
  · intro t₁ t₂ h₁ h₂
    exact inv.unique t₁ t₂ (holds t₁ ▸ h₁) (holds t₂ ▸ h₂)
  · intro t' h
    exact inv.held t' (holds t' ▸ h)
  · intro one
    obtain ⟨t', h⟩ := inv.free one
    exact ⟨t', (holds t').trans h⟩
  · exact inv.word
  · intro t' context mem
    obtain ⟨low, stored | ⟨t'', storing⟩⟩ := inv.success t' context mem
    · exact ⟨low, Or.inl stored⟩
    · refine ⟨low, Or.inr ⟨t'', ?_⟩⟩
      rw [goto_calls, if_neg, storing]
      rintro rfl
      exact (other context).1 (at_t.symm.trans storing)
  · intro t' context storing
    rw [goto_calls] at storing
    by_cases eq : t' = t
    · rw [if_pos eq] at storing
      exact absurd storing (other context).2
    · rw [if_neg eq] at storing
      exact inv.completing t' context storing
  · intro t' context returning
    rw [goto_calls] at returning
    by_cases eq : t' = t
    · rw [if_pos eq] at returning
      exact reply context returning
    · rw [if_neg eq] at returning
      exact inv.replies t' context returning

omit [DecidableEq τ] in
theorem Inv.log (inv : Inv s) (other : ∀ t context, e ≠ .succeeded t context)
    (after : AfterSuccess (s.events ++ [e])) : Inv (s.log e) where
  after := after
  unique := inv.unique
  held := inv.held
  free := inv.free
  word := inv.word
  success t context mem := by
    rcases List.mem_append.mp mem with early | late
    · exact inv.success t context early
    · exact absurd (List.mem_singleton.mp late).symm (other t context)
  completing := inv.completing
  replies := inv.replies

theorem Inv.take (inv : Inv s) (zero : s.once = 0) (t : τ) :
    Inv ({ s with once := 1 }.goto t .won) := by
  have nobody : ∀ t', (s.calls t').holds = false := by
    intro t'
    by_contra holds
    have one := inv.held t' (by simpa using holds)
    rw [zero] at one
    exact absurd one (by decide)
  have only : ∀ t', (({ s with once := 1 }.goto t .won).calls t').holds = true → t' = t := by
    intro t' holds
    rw [goto_calls] at holds
    by_contra ne
    rw [if_neg ne, nobody t'] at holds
    cases holds
  have noSuccess : ∀ t' context, .succeeded t' context ∉ s.events := by
    intro t' context mem
    rcases (inv.success t' context mem).2 with stored | ⟨t'', storing⟩
    · exact or_two_ne_zero context (stored.symm.trans zero)
    · have holds := nobody t''
      rw [storing] at holds
      cases holds
  constructor
  · exact inv.after
  · intro t₁ t₂ h₁ h₂
    exact (only t₁ h₁).trans (only t₂ h₂).symm
  · exact fun _ _ => rfl
  · exact fun _ => ⟨t, by rw [goto_calls, if_pos rfl]; rfl⟩
  · exact Or.inr (Or.inl rfl)
  · exact fun t' context mem => absurd mem (noSuccess t' context)
  · intro t' context storing
    have eq := only t' (by rw [storing]; rfl)
    rw [eq, goto_calls, if_pos rfl] at storing
    cases storing
  · intro t' context returning
    rw [goto_calls] at returning
    split at returning
    · cases returning
    · have stored := (inv.replies t' context returning).2
      exact absurd (stored.symm.trans zero) (or_two_ne_zero context)

theorem Inv.succeed (inv : Inv s) (at_t : s.calls t = .running) {context : Word}
    (low : context &&& 3 = 0) :
    Inv ((s.log (.succeeded t context)).goto t (.completing context)) := by
  have noSuccess := inv.noSuccess at_t rfl fun context => by simp
  have one := inv.held t (by rw [at_t]; rfl)
  have holds : ∀ t', (((s.log (.succeeded t context)).goto t (.completing context)).calls
      t').holds = (s.calls t').holds := by
    intro t'
    rw [goto_calls]
    by_cases eq : t' = t
    · rw [if_pos eq, eq, at_t]
      rfl
    · rw [if_neg eq]
      rfl
  constructor
  · refine afterSuccess_snoc inv.after ?_ ?_ <;> simp
  · intro t₁ t₂ h₁ h₂
    exact inv.unique t₁ t₂ (holds t₁ ▸ h₁) (holds t₂ ▸ h₂)
  · exact fun _ _ => one
  · exact fun _ => ⟨t, by rw [goto_calls, if_pos rfl]; rfl⟩
  · exact inv.word
  · intro t' context' mem
    rcases List.mem_append.mp mem with early | late
    · exact absurd early (noSuccess t' context')
    · obtain ⟨-, rfl⟩ : t' = t ∧ context' = context := by simpa using late
      exact ⟨low, Or.inr ⟨t, by rw [goto_calls, if_pos rfl]⟩⟩
  · intro t' context' storing
    rw [goto_calls] at storing
    split at storing
    · cases storing
      exact low
    · exact inv.completing t' context' storing
  · intro t' context' returning
    rw [goto_calls] at returning
    split at returning
    · cases returning
    · exact inv.replies t' context' returning

theorem Inv.store (inv : Inv s) (at_t : s.calls t = c) (holds : c.holds = true) {word : Word}
    {reply : Call} (free : reply.holds = false)
    (outcome : (∀ t' context, .succeeded t' context ∈ s.events →
        context &&& 3 = 0 ∧ word = context ||| 2) ∧
      (word = 0 ∨ ∃ context, context &&& 3 = 0 ∧ word = context ||| 2) ∧
      ∀ context, reply = .returning true context →
        context &&& 3 = 0 ∧ word = context ||| 2) :
    Inv ({ s with once := word }.goto t reply) := by
  obtain ⟨success, shape, answers⟩ := outcome
  have one := inv.held t (by rw [at_t, holds])
  have nobody : ∀ t', (({ s with once := word }.goto t reply).calls t').holds = false := by
    intro t'
    rw [goto_calls]
    by_cases eq : t' = t
    · rw [if_pos eq, free]
    · rw [if_neg eq]
      by_contra other
      exact eq (inv.unique t' t (by simpa using other) (by rw [at_t, holds]))
  have notOne : word ≠ 1 := by
    rcases shape with rfl | ⟨context, -, rfl⟩
    · decide
    · exact or_two_ne_one context
  constructor
  · exact inv.after
  · intro t₁ t₂ h₁ h₂
    rw [nobody t₁] at h₁
    cases h₁
  · intro t' h
    rw [nobody t'] at h
    cases h
  · exact fun eq => absurd eq notOne
  · rcases shape with zero | context
    · exact Or.inl zero
    · exact Or.inr (Or.inr context)
  · intro t' context mem
    obtain ⟨low, stored⟩ := success t' context mem
    exact ⟨low, Or.inl stored⟩
  · intro t' context storing
    have h := nobody t'
    rw [storing] at h
    cases h
  · intro t' context returning
    rw [goto_calls] at returning
    by_cases eq : t' = t
    · rw [if_pos eq] at returning
      exact answers context returning
    · rw [if_neg eq] at returning
      have stored := (inv.replies t' context returning).2
      exact absurd (stored.symm.trans one) (or_two_ne_one context)

/-! ## Runs -/

theorem step_inv {op : τ × Action} (inv : Inv s) (fits : StepFits s op)
    (stepped : step s op = some s') : Inv s' := by
  obtain ⟨t, act⟩ := op
  have quiet : ∀ {c c' : Call} (_ : s.calls t = c), c.holds = false → c'.holds = false →
      (∀ context, c' = .returning true context →
        context &&& 3 = 0 ∧ s.once = context ||| 2) → Inv (s.goto t c') := by
    intro c c' at_t free free' reply
    refine inv.goto at_t (free'.trans free.symm) (fun context => ⟨?_, ?_⟩) reply <;>
    · rintro rfl
      simp [Call.holds] at free free'
  cases at_t : s.calls t with
  | idle =>
    cases act with
    | enter =>
      obtain rfl : s.goto t .load = s' := by simpa [step, at_t] using stepped
      exact quiet at_t rfl rfl (by simp)
    | _ => simp [step, at_t, State.complete] at stepped
  | load =>
    cases act with
    | load =>
      obtain rfl : s.loaded t = s' := by simpa [step, at_t] using stepped
      rw [State.loaded, beginLoaded_zero]
      by_cases zero : s.once = 0
      · rw [if_pos zero]
        exact quiet at_t rfl rfl (by simp)
      · rw [if_neg zero]
        by_cases one : s.once = 1
        · rw [if_pos one]
          exact quiet at_t rfl rfl (by simp)
        · rw [if_neg one]
          obtain ⟨context, low, stored⟩ := (inv.word.resolve_left zero).resolve_left one
          refine quiet at_t rfl rfl fun context' eq => ?_
          obtain rfl : s.once &&& ~~~3 = context' := by simpa using eq
          rw [stored, or_two_and low]
          exact ⟨low, rfl⟩
    | _ => simp [step, at_t, State.complete] at stepped
  | compareAndSwap =>
    cases act with
    | compareAndSwap =>
      by_cases zero : s.once = 0
      · have taken : step s (t, .compareAndSwap) = some ({ s with once := 1 }.goto t .won) := by
          simp only [step, at_t]
          exact if_pos zero
        obtain rfl := Option.some.inj (taken.symm.trans stepped)
        exact inv.take zero t
      · have missed : step s (t, .compareAndSwap) = some (s.goto t .load) := by
          simp only [step, at_t]
          exact if_neg zero
        obtain rfl := Option.some.inj (missed.symm.trans stepped)
        exact quiet at_t rfl rfl (by simp)
    | _ => simp [step, at_t, State.complete] at stepped
  | won =>
    cases act with
    | start =>
      obtain rfl : (s.log (.started t)).goto t .running = s' := by
        simpa [step, at_t] using stepped
      have noSuccess := inv.noSuccess at_t rfl fun context => by simp
      have after : AfterSuccess (s.events ++ [.started t]) :=
        afterSuccess_snoc inv.after (fun _ _ => noSuccess) (by simp)
      exact (inv.log (by simp) after).goto (c := .won) at_t rfl (by simp) (by simp)
    | _ => simp [step, at_t, State.complete] at stepped
  | running =>
    cases act with
    | callback ok context =>
      cases ok with
      | true =>
        obtain rfl : (s.log (.succeeded t context)).goto t (.completing context) = s' := by
          simpa [step, at_t] using stepped
        exact inv.succeed at_t (fits context rfl)
      | false =>
        obtain rfl : (s.log (.failed t)).goto t .failing = s' := by
          simpa [step, at_t] using stepped
        have after : AfterSuccess (s.events ++ [.failed t]) :=
          afterSuccess_snoc inv.after (by simp) (by simp)
        exact (inv.log (by simp) after).goto (c := .running) at_t rfl (by simp) (by simp)
    | _ => simp [step, at_t, State.complete] at stepped
  | failing =>
    cases act with
    | complete =>
      have stored : s.complete t .failing = some ({ s with once := 0 }.goto t
          (.returning false 0)) := by
        rw [State.complete, completeStore_failed]
      have stepped' : s.complete t .failing = some s' := by simpa only [step, at_t] using stepped
      obtain rfl := Option.some.inj (stored.symm.trans stepped')
      have noSuccess := inv.noSuccess at_t rfl fun context => by simp
      exact inv.store at_t rfl rfl
        ⟨fun t' context mem => absurd mem (noSuccess t' context), Or.inl rfl, by simp⟩
    | _ => simp [step, at_t] at stepped
  | completing context =>
    cases act with
    | complete =>
      have low := inv.completing t context at_t
      have stored : s.complete t (.completing context) = some
          ({ s with once := context ||| 2 }.goto t (.returning true context)) := by
        rw [State.complete, completeStore_zero, if_pos low]
      have stepped' : s.complete t (.completing context) = some s' := by
        simpa only [step, at_t] using stepped
      obtain rfl := Option.some.inj (stored.symm.trans stepped')
      refine inv.store at_t rfl rfl ⟨?_, Or.inr ⟨context, low, rfl⟩, ?_⟩
      · intro t' context' mem
        obtain ⟨low', stored | ⟨t'', storing⟩⟩ := inv.success t' context' mem
        · have one := inv.held t (by rw [at_t]; rfl)
          exact absurd (stored.symm.trans one) (or_two_ne_one context')
        · obtain rfl : t'' = t := inv.unique t'' t (by rw [storing]; rfl) (by rw [at_t]; rfl)
          obtain rfl : context = context' := by simpa [at_t] using storing
          exact ⟨low', rfl⟩
      · intro context' eq
        obtain rfl : context = context' := by simpa using eq
        exact ⟨low, rfl⟩
    | _ => simp [step, at_t] at stepped
  | returning rc context =>
    cases act with
    | leave =>
      obtain rfl : (s.log (.returned t rc context)).goto t .idle = s' := by
        simpa [step, at_t] using stepped
      have after : AfterSuccess (s.events ++ [.returned t rc context]) := by
        refine afterSuccess_snoc inv.after (by simp) ?_
        intro t₁ context₁ eq t₂ context₂ mem
        obtain ⟨-, rfl, rfl⟩ : t = t₁ ∧ rc = true ∧ context = context₁ := by simpa using eq
        obtain ⟨low, stored⟩ := inv.replies t context at_t
        obtain ⟨low', stored' | ⟨t', storing⟩⟩ := inv.success t₂ context₂ mem
        · exact or_two_inj low low' (stored.symm.trans stored')
        · have one := inv.held t' (by rw [storing]; rfl)
          exact absurd (stored.symm.trans one) (or_two_ne_one context)
      exact (inv.log (by simp) after).goto (c := .returning rc context) at_t rfl (by simp)
        (by simp)
    | _ => simp [step, at_t, State.complete] at stepped

omit [DecidableEq τ] in
theorem inv_init : Inv (init : State τ) where
  after before t context after split := by
    have lengths := congrArg List.length split
    simp [init] at lengths
  unique t t' holds := by cases holds
  held t holds := by cases holds
  free one := by cases one
  word := Or.inl rfl
  success t context mem := by cases mem
  completing t context storing := by cases storing
  replies t context returning := by cases returning

/-- One-time initialisation keeps its promises in every interleaving in which each callback
that succeeds gives a context the word can hold. -/
theorem initOnce_promised (ops : List (τ × Action)) (s : State τ)
    (fits : StepRun.Meets step StepFits init ops) (ran : StepRun.run step ops init = some s) :
    Promised s :=
  (StepRun.run_keeps (fun _ _ _ => step_inv) inv_init fits ran).promised

/-- Two threads; the second one looks while the first one's callback runs. -/
def twoCalls : List (Bool × Action) :=
  [(true, .enter), (true, .load), (true, .compareAndSwap), (true, .start), (false, .enter),
    (false, .load), (true, .callback true 8), (true, .complete), (true, .leave),
    (false, .load), (false, .leave)]

theorem twoCalls_fits : ∀ op ∈ twoCalls, ∀ s, StepFits s op := by
  intro op mem s context eq
  have eight : ∀ op ∈ twoCalls, ∀ context, op.2 = .callback true context → context = 8 := by
    simp [twoCalls]
  rw [eight op mem context eq]
  decide

theorem initOnce_promised_twoCalls : ∃ s, StepRun.run step twoCalls init = some s ∧ Promised s :=
  ⟨_, rfl, initOnce_promised twoCalls _ (StepRun.meets_of_all twoCalls_fits) rfl⟩

/-- The context 1 is refused, and the word stays 1 with nobody to change it. -/
def stuck : List (Bool × Action) :=
  [(true, .enter), (true, .load), (true, .compareAndSwap), (true, .start),
    (true, .callback true 1), (true, .complete)]

theorem stuck_not_promised : ¬ ∀ (ops : List (Bool × Action)) (s : State Bool),
    StepRun.run step ops init = some s → Promised s := by
  intro all
  have promised := all stuck _ rfl
  obtain ⟨t', ne, holds⟩ := promised.released true 1 rfl rfl
  cases t' with
  | true => exact ne rfl
  | false => cases holds

end Odin32.InitOnce
