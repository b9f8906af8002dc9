import Odin32.CriticalSection
import Mathlib.Algebra.Order.BigOperators.Group.Finset
import Mathlib.Tactic.Common

/-! # Interleavings of a critical section

At every moment at most one thread carries the section or the semaphore holds one count for the
next one, and then `LockCount` is not negative. A thread that finds it at -1 therefore finds
nobody. -/

set_option autoImplicit false

namespace Odin32.CriticalSection

/-- What a thread may have entered at a place of the calls. -/
def Call.Placed (d : ℕ) : Call → Prop
  | .recurse | .recurseStore _ | .tryIncrement | .leave | .leaveStore _ => 0 < d
  | .get _ _ | .wait | .raised | .own | .ownCount | .release => d = 0
  | .decrement => 2 ≤ d
  | .disown | .lastDecrement => d = 1
  | .idle | .increment | .compareOwner | .trySwap | .tryOwner => True

/-- The thread is in `OwningThread`. -/
def Call.Owns (d : ℕ) : Call → Prop
  | .ownCount => True
  | .lastDecrement => False
  | _ => 0 < d

/-- `RecursionCount`, where it counts for the thread. -/
def Call.Counts (d : ℕ) (recursionCount : ℤ) : Call → Prop
  | .recurseStore n | .leaveStore n => n = d ∧ recursionCount = d
  | .decrement => recursionCount + 1 = d
  | .disown | .lastDecrement => True
  | _ => 0 < d → recursionCount = d

def State.Carries {τ : Type} (s : State τ) (t : τ) : Prop := (s.calls t).Carries (s.entered t)

def State.claims {τ : Type} (s : State τ) (t : τ) : ℕ := (s.calls t).claims (s.entered t)

structure Inv {τ : Type} [Fintype τ] (s : State τ) : Prop where
  unique : ∀ t t', s.Carries t → s.Carries t' → t = t'
  placed : ∀ t, (s.calls t).Placed (s.entered t)
  owner : ∀ t, s.owningThread = some t ↔ (s.calls t).Owns (s.entered t)
  recursion : ∀ t, (s.calls t).Counts (s.entered t) s.recursionCount
  count : s.lockCount + 1 = ((∑ t, s.claims t : ℕ) : ℤ)
  up : ∀ t, s.Carries t → 0 ≤ s.lockCount
  token : ∀ n, s.lockSemaphore = some n → n ≠ 0 →
    n = 1 ∧ 0 ≤ s.lockCount ∧ ∀ t, ¬s.Carries t
  present : ∀ t, s.calls t = .wait ∨ s.calls t = .release → s.lockSemaphore.isSome = true

/-- The section is taken by a thread, or the semaphore holds it for the next one. -/
def Supplied {τ : Type} (s : State τ) : Prop :=
  0 ≤ s.lockCount → (∃ t, s.Carries t) ∨ s.lockSemaphore = some 1

variable {c : Call} {d : ℕ}

theorem carries_of_pos (pos : 0 < d) : c.Carries d := by
  cases c with
  | get g p => cases p with
    | wait => exact pos
    | release => trivial
  | own | ownCount | release => trivial
  | _ => exact pos

theorem pos_of_owns (owns : c.Owns d) : 0 < d ∨ c = .ownCount := by
  cases c with
  | ownCount => exact .inr rfl
  | lastDecrement => exact owns.elim
  | _ => exact .inl owns

theorem carries_of_owns (owns : c.Owns d) : c.Carries d := by
  rcases pos_of_owns owns with pos | rfl
  · exact carries_of_pos pos
  · trivial

/-- The count does not matter for a thread that is outside. -/
theorem counts_outside (outside : ¬c.Carries d) (placed : c.Placed d) (r : ℤ) : c.Counts d r := by
  have zero : ¬0 < d := fun pos => outside (carries_of_pos pos)
  cases c with
  | recurseStore n | leaveStore n => exact absurd placed zero
  | decrement => exact absurd (Nat.lt_of_lt_of_le Nat.two_pos placed) zero
  | disown | lastDecrement => trivial
  | _ => exact fun pos => absurd pos zero

section Inv

variable {τ : Type} [Fintype τ] {s : State τ} {t : τ}

theorem Inv.claims_le (inv : Inv s) (t : τ) : (s.claims t : ℤ) ≤ s.lockCount + 1 := by
  rw [inv.count]
  exact_mod_cast Finset.single_le_sum (fun t' _ => Nat.zero_le (s.claims t')) (Finset.mem_univ t)

/-- At -1 there is nobody. -/
theorem Inv.nobody (inv : Inv s) (free : s.lockCount < 0) (t : τ) : ¬s.Carries t := by
  intro carries
  have up := inv.up t carries
  omega

theorem Inv.noToken (inv : Inv s) (carries : s.Carries t) {n : ℕ}
    (held : s.lockSemaphore = some n) : n = 0 := by
  by_contra ne
  exact (inv.token n held ne).2.2 t carries

theorem Inv.low (inv : Inv s) : -1 ≤ s.lockCount := by
  have sum := inv.count
  omega

end Inv

theorem inc32_of_lt {n : ℤ} (lt : n < 0x7ffffffe) : inc32 n = n + 1 := by
  rw [inc32, if_neg]
  omega

theorem dec32_of_nonneg {n : ℤ} (le : 0 ≤ n) : dec32 n = n - 1 := by
  rw [dec32, if_neg]
  omega

section Steps

variable {τ : Type} {s s' : State τ} {t : τ} {ok : Bool}

theorem calls_claims (at_t : s.calls t = c) : s.claims t = c.claims (s.entered t) := by
  unfold State.claims
  rw [at_t]

theorem calls_carries (at_t : s.calls t = c) : s.Carries t ↔ c.Carries (s.entered t) := by
  unfold State.Carries
  rw [at_t]

variable [DecidableEq τ]

/-- What a step of the thread `t` does that has got to a call, inside so many times. The section
is handed on but for a semaphore that is wanted and not created. -/
structure Kept (ok : Bool) (s s' : State τ) (t : τ) (c : Call) (d : ℕ) : Prop where
  calls : s'.calls = Function.update s.calls t c
  entered : s'.entered = Function.update s.entered t d
  placed : c.Placed d
  carries : c.Carries d → s.Carries t ∨ ∀ t', ¬s.Carries t'
  owns : s'.owningThread = some t ↔ c.Owns d
  others : ∀ t', t' ≠ t → (s'.owningThread = some t' ↔ s.owningThread = some t')
  counts : c.Counts d s'.recursionCount
  alone : s'.recursionCount = s.recursionCount ∨ s.Carries t
  count : s'.lockCount + s.claims t = s.lockCount + c.claims d
  up : c.Carries d → 0 ≤ s'.lockCount
  down : s.lockCount ≤ s'.lockCount ∨ s.Carries t
  token : ∀ n, s'.lockSemaphore = some n → n ≠ 0 →
    n = 1 ∧ 0 ≤ s'.lockCount ∧ ¬c.Carries d ∧ (s.Carries t ∨ ∀ t', ¬s.Carries t')
  handed : (∀ p, s.calls t = .get .create p → ok = true) → s.Carries t →
    c.Carries d ∨ s'.lockCount < 0 ∨ s'.lockSemaphore = some 1
  kept : s.lockSemaphore = some 1 → s'.lockSemaphore = some 1 ∨ c.Carries d
  raised : s.lockCount < 0 → 0 ≤ s'.lockCount → c.Carries d
  present : c = .wait ∨ c = .release → s'.lockSemaphore.isSome = true
  lasting : s.lockSemaphore.isSome = true → s'.lockSemaphore.isSome = true

theorem Kept.here (kept : Kept ok s s' t c d) : s'.calls t = c ∧ s'.entered t = d := by
  rw [kept.calls, kept.entered, Function.update_self, Function.update_self]
  exact ⟨rfl, rfl⟩

theorem Kept.there (kept : Kept ok s s' t c d) {t' : τ} (other : t' ≠ t) :
    s'.calls t' = s.calls t' ∧ s'.entered t' = s.entered t' := by
  rw [kept.calls, kept.entered, Function.update_of_ne other, Function.update_of_ne other]
  exact ⟨rfl, rfl⟩

theorem Kept.carries_here (kept : Kept ok s s' t c d) : s'.Carries t ↔ c.Carries d := by
  unfold State.Carries
  rw [kept.here.1, kept.here.2]

theorem Kept.carries_there (kept : Kept ok s s' t c d) {t' : τ} (other : t' ≠ t) :
    s'.Carries t' ↔ s.Carries t' := by
  unfold State.Carries
  rw [(kept.there other).1, (kept.there other).2]

theorem Kept.claims (kept : Kept ok s s' t c d) :
    s'.claims = Function.update s.claims t (c.claims d) := by
  funext t'
  unfold State.claims
  by_cases same : t' = t
  · subst same
    rw [kept.here.1, kept.here.2, Function.update_self]
  · rw [(kept.there same).1, (kept.there same).2, Function.update_of_ne same]

/-- Who has the section keeps it, hands it on or leaves it at -1. -/
theorem Supplied.step (supplied : Supplied s) (kept : Kept ok s s' t c d)
    (made : ∀ p, s.calls t = .get .create p → ok = true) : Supplied s' := by
  intro high
  have here : c.Carries d → (∃ t', s'.Carries t') ∨ s'.lockSemaphore = some 1 := fun carries =>
    .inl ⟨t, kept.carries_here.mpr carries⟩
  by_cases low : s.lockCount < 0
  · exact here (kept.raised low high)
  · rcases supplied (Int.not_lt.mp low) with ⟨t', carries⟩ | token
    · by_cases same : t' = t
      · rcases kept.handed made (same ▸ carries) with still | free | posted
        · exact here still
        · exact absurd high (Int.not_le.mpr free)
        · exact .inr posted
      · exact .inl ⟨t', (kept.carries_there same).mpr carries⟩
    · rcases kept.kept token with still | taken
      · exact .inr still
      · exact here taken

variable [Fintype τ]

theorem sum_update (f : τ → ℕ) (t : τ) (n : ℕ) :
    ∑ t', Function.update f t n t' + f t = ∑ t', f t' + n := by
  rw [Finset.sum_update_of_mem (Finset.mem_univ t), ← Finset.add_sum_erase _ f (Finset.mem_univ t),
    Finset.sdiff_singleton_eq_erase]
  omega

/-- Nobody else carries the section of a thread that goes on carrying it. -/
theorem Kept.others_out (kept : Kept ok s s' t c d) (inv : Inv s)
    (alone : s.Carries t ∨ ∀ t', ¬s.Carries t') {t' : τ} (other : t' ≠ t) : ¬s'.Carries t' := by
  rw [kept.carries_there other]
  intro carries
  rcases alone with here | nobody
  · exact other (inv.unique t' t carries here)
  · exact nobody t' carries

theorem Inv.step (inv : Inv s) (kept : Kept ok s s' t c d) : Inv s' where
  unique t₁ t₂ carries₁ carries₂ := by
    by_cases first : t₁ = t
    · by_cases second : t₂ = t
      · exact first.trans second.symm
      · have alone := kept.carries (kept.carries_here.mp (first ▸ carries₁))
        exact absurd carries₂ (kept.others_out inv alone second)
    · by_cases second : t₂ = t
      · have alone := kept.carries (kept.carries_here.mp (second ▸ carries₂))
        exact absurd carries₁ (kept.others_out inv alone first)
      · exact inv.unique t₁ t₂ ((kept.carries_there first).mp carries₁)
          ((kept.carries_there second).mp carries₂)
  placed t' := by
    by_cases same : t' = t
    · subst same
      rw [kept.here.1, kept.here.2]
      exact kept.placed
    · rw [(kept.there same).1, (kept.there same).2]
      exact inv.placed t'
  owner t' := by
    by_cases same : t' = t
    · subst same
      rw [kept.here.1, kept.here.2]
      exact kept.owns
    · rw [(kept.there same).1, (kept.there same).2, kept.others t' same]
      exact inv.owner t'
  recursion t' := by
    by_cases same : t' = t
    · subst same
      rw [kept.here.1, kept.here.2]
      exact kept.counts
    · rw [(kept.there same).1, (kept.there same).2]
      rcases kept.alone with eq | carries
      · rw [eq]
        exact inv.recursion t'
      · refine counts_outside (fun there => ?_) (inv.placed t') _
        exact same (inv.unique t' t there carries)
  count := by
    have sum := sum_update s.claims t (c.claims d)
    rw [← kept.claims] at sum
    have before := inv.count
    have moved := kept.count
    omega
  up t' carries := by
    by_cases same : t' = t
    · exact kept.up (kept.carries_here.mp (same ▸ carries))
    · have there := (kept.carries_there same).mp carries
      rcases kept.down with le | here
      · exact (inv.up t' there).trans le
      · exact absurd (inv.unique t' t there here) same
  token n held ne := by
    obtain ⟨one, up, out, alone⟩ := kept.token n held ne
    refine ⟨one, up, fun t' => ?_⟩
    by_cases same : t' = t
    · rw [same, kept.carries_here]
      exact out
    · exact kept.others_out inv alone same
  present t' at_t' := by
    by_cases same : t' = t
    · rw [same, kept.here.1] at at_t'
      exact kept.present at_t'
    · rw [(kept.there same).1] at at_t'
      exact kept.lasting (inv.present t' at_t')

/-! ## The accesses -/

/-- Only the place of the thread changes, and nothing it stands for; a semaphore may have come
without a count. -/
theorem kept_place (inv : Inv s) {sem : Option ℕ} (same : s.lockSemaphore.isSome = true →
      sem = s.lockSemaphore) (new : s.lockSemaphore = none → sem = none ∨ sem = some 0)
    (placed : c.Placed (s.entered t)) (carries : c.Carries (s.entered t) ↔ s.Carries t)
    (owns : c.Owns (s.entered t) ↔ (s.calls t).Owns (s.entered t))
    (claims : c.claims (s.entered t) = s.claims t)
    (counts : c.Counts (s.entered t) s.recursionCount)
    (present : c = .wait ∨ c = .release → sem.isSome = true) :
    Kept ok s ({ s with lockSemaphore := sem }.goto t c) t c (s.entered t) := by
  have old : ∀ n, sem = some n → n ≠ 0 → s.lockSemaphore = some n := by
    intro n eq ne
    cases sems : s.lockSemaphore with
    | some m => rw [← sems, ← same (by rw [sems]; rfl), eq]
    | none =>
      rcases new sems with rfl | rfl
      · cases eq
      · exact absurd (Option.some.inj eq).symm ne
  constructor
  · rfl
  · exact (Function.update_eq_self t s.entered).symm
  · exact placed
  · exact fun there => .inl (carries.mp there)
  · exact (inv.owner t).trans owns.symm
  · exact fun _ _ => Iff.rfl
  · exact counts
  · exact .inl rfl
  · rw [claims]
    rfl
  · exact fun there => inv.up t (carries.mp there)
  · exact .inl (Int.le_refl _)
  · intro n held ne
    obtain ⟨one, up, nobody⟩ := inv.token n (old n held ne) ne
    exact ⟨one, up, fun there => nobody t (carries.mp there), .inr nobody⟩
  · exact fun _ there => .inl (carries.mpr there)
  · exact fun held => .inl ((same (by rw [held]; rfl)).trans held)
  · exact fun low high => absurd high (Int.not_le.mpr low)
  · exact present
  · intro some_
    show sem.isSome = true
    rw [same some_]
    exact some_

theorem kept_goto (inv : Inv s) (placed : c.Placed (s.entered t))
    (carries : c.Carries (s.entered t) ↔ s.Carries t)
    (owns : c.Owns (s.entered t) ↔ (s.calls t).Owns (s.entered t))
    (claims : c.claims (s.entered t) = s.claims t)
    (counts : c.Counts (s.entered t) s.recursionCount)
    (present : c = .wait ∨ c = .release → s.lockSemaphore.isSome = true) :
    Kept ok s (s.goto t c) t c (s.entered t) :=
  kept_place inv (fun _ => rfl) .inl placed carries owns claims counts present

/-- The thread that carries the section has the fields for itself. -/
theorem kept_carrier (inv : Inv s) (carries : s.Carries t)
    (calls : s'.calls = Function.update s.calls t c)
    (entered : s'.entered = Function.update s.entered t d)
    (semaphore : s'.lockSemaphore = s.lockSemaphore) (placed : c.Placed d)
    (owns : s'.owningThread = some t ↔ c.Owns d)
    (others : s'.owningThread = s.owningThread ∨ s'.owningThread = some t ∨
      s'.owningThread = none)
    (counts : c.Counts d s'.recursionCount)
    (count : s'.lockCount + s.claims t = s.lockCount + c.claims d)
    (up : c.Carries d → 0 ≤ s'.lockCount) (down : c.Carries d ∨ s'.lockCount < 0)
    (present : c ≠ .wait ∧ c ≠ .release) : Kept ok s s' t c d := by
  have noToken : ∀ n, s.lockSemaphore = some n → n = 0 := fun n => inv.noToken carries
  have notOwner : ∀ t', t' ≠ t → s.owningThread ≠ some t' := fun t' other owner =>
    other (inv.unique t' t (carries_of_owns ((inv.owner t').mp owner)) carries)
  constructor
  · exact calls
  · exact entered
  · exact placed
  · exact fun _ => .inl carries
  · exact owns
  · intro t' other
    rcases others with eq | eq | eq
    · rw [eq]
    · refine iff_of_false (fun owner => ?_) (notOwner t' other)
      exact other (Option.some.inj (owner.symm.trans eq))
    · refine iff_of_false (fun owner => ?_) (notOwner t' other)
      cases owner.symm.trans eq
  · exact counts
  · exact .inr carries
  · exact count
  · exact up
  · exact .inr carries
  · exact fun n held ne => absurd (noToken n (semaphore ▸ held)) ne
  · exact fun _ _ => down.imp id .inl
  · exact fun held => absurd (noToken 1 held) Nat.one_ne_zero
  · exact fun low _ => absurd (inv.up t carries) (Int.not_le.mpr low)
  · rintro (wait | release)
    · exact absurd wait present.1
    · exact absurd release present.2
  · intro some_
    rw [semaphore]
    exact some_

/-- A thread takes the section from -1. -/
theorem kept_take (inv : Inv s) (free : s.lockCount = -1) (claims : s.claims t = s.entered t) :
    Kept ok s ({ s with lockCount := 0 }.goto t .own) t .own 0 := by
  have nobody := inv.nobody (by omega)
  have outside : s.entered t = 0 := by
    by_contra ne
    exact nobody t (carries_of_pos (Nat.pos_of_ne_zero ne))
  have ownerless : s.owningThread ≠ some t := fun owner =>
    nobody t (carries_of_owns ((inv.owner t).mp owner))
  have noToken : ∀ n, s.lockSemaphore = some n → n = 0 := by
    intro n held
    by_contra ne
    have up := (inv.token n held ne).2.1
    omega
  constructor
  · rfl
  · rw [← outside]
    exact (Function.update_eq_self t s.entered).symm
  · exact rfl
  · exact fun _ => .inr nobody
  · exact iff_of_false ownerless (Nat.lt_irrefl 0)
  · exact fun _ _ => Iff.rfl
  · exact fun pos => absurd pos (Nat.lt_irrefl 0)
  · exact .inl rfl
  · rw [claims, outside, free]
    rfl
  · exact fun _ => Int.le_refl 0
  · refine .inl ?_
    show s.lockCount ≤ 0
    omega
  · exact fun n held ne => absurd (noToken n held) ne
  · exact fun _ carries => absurd carries (nobody t)
  · exact fun held => absurd (noToken 1 held) Nat.one_ne_zero
  · exact fun _ _ => trivial
  · rintro (wait | release)
    · cases wait
    · cases release
  · exact id

/-- The thread the semaphore wakes up. -/
theorem kept_wake (inv : Inv s) (at_t : s.calls t = .wait) {n : ℕ}
    (held : s.lockSemaphore = some (n + 1)) :
    Kept ok s ({ s with lockSemaphore := some n }.goto t .own) t .own 0 := by
  obtain ⟨one, up, nobody⟩ := inv.token (n + 1) held (Nat.succ_ne_zero n)
  obtain rfl : n = 0 := Nat.succ.inj one
  have placed := inv.placed t
  rw [at_t] at placed
  have outside : s.entered t = 0 := placed
  have ownerless : s.owningThread ≠ some t := fun owner =>
    nobody t (carries_of_owns ((inv.owner t).mp owner))
  constructor
  · rfl
  · rw [← outside]
    exact (Function.update_eq_self t s.entered).symm
  · exact rfl
  · exact fun _ => .inr nobody
  · exact iff_of_false ownerless (Nat.lt_irrefl 0)
  · exact fun _ _ => Iff.rfl
  · exact fun pos => absurd pos (Nat.lt_irrefl 0)
  · exact .inl rfl
  · rw [calls_claims at_t, outside]
    rfl
  · exact fun _ => up
  · exact .inl (Int.le_refl _)
  · exact fun m zero ne => absurd (Option.some.inj zero).symm ne
  · exact fun _ carries => absurd carries (nobody t)
  · exact fun _ => .inr trivial
  · exact fun _ _ => trivial
  · rintro (wait | release)
    · cases wait
    · cases release
  · exact fun _ => rfl

/-- The thread that wakes another one up. -/
theorem kept_release (inv : Inv s) (at_t : s.calls t = .release)
    (present : s.lockSemaphore.isSome = true) :
    Kept ok s ({ s with lockSemaphore := s.lockSemaphore.map releaseSemaphore }.goto t .idle) t
      .idle 0 := by
  have carries : s.Carries t := (calls_carries at_t).mpr trivial
  have placed := inv.placed t
  rw [at_t] at placed
  have outside : s.entered t = 0 := placed
  obtain ⟨m, held⟩ := Option.isSome_iff_exists.mp present
  obtain rfl := inv.noToken carries held
  rw [held]
  constructor
  · rfl
  · rw [← outside]
    exact (Function.update_eq_self t s.entered).symm
  · trivial
  · exact fun pos => absurd pos (Nat.lt_irrefl 0)
  · refine (inv.owner t).trans ?_
    rw [at_t, outside]
    exact Iff.rfl
  · exact fun _ _ => Iff.rfl
  · exact fun pos => absurd pos (Nat.lt_irrefl 0)
  · exact .inl rfl
  · rw [calls_claims at_t, outside]
    rfl
  · exact fun pos => absurd pos (Nat.lt_irrefl 0)
  · exact .inl (Int.le_refl _)
  · intro n one ne
    exact ⟨(Option.some.inj one).symm, inv.up t carries, Nat.lt_irrefl 0, .inl carries⟩
  · exact fun _ _ => .inr (.inr rfl)
  · intro one
    cases held.symm.trans one
  · exact fun low _ => absurd (inv.up t carries) (Int.not_le.mpr low)
  · rintro (wait | release)
    · cases wait
    · cases release
  · exact fun _ => rfl

/-- `LockCount` was -1, or the section is somebody's. -/
theorem kept_increment (inv : Inv s) (room : s.lockCount < 0x7ffffffe)
    (at_t : s.calls t = .increment) :
    ∃ c d, Kept ok s ({ s with lockCount := inc32 s.lockCount }.goto t
      (if inc32 s.lockCount = 0 then .own else .compareOwner)) t c d := by
  have low := inv.low
  have carries := calls_carries at_t
  rw [inc32_of_lt room]
  by_cases free : s.lockCount = -1
  · rw [free]
    exact ⟨.own, 0, kept_take inv free (calls_claims at_t)⟩
  · have owner := inv.owner t
    have counts := inv.recursion t
    rw [at_t] at owner counts
    rw [if_neg (by omega)]
    refine ⟨.compareOwner, s.entered t, rfl, (Function.update_eq_self t s.entered).symm, trivial,
      fun pos => .inl (carries.mpr pos), owner, fun _ _ => Iff.rfl, counts, .inl rfl, ?_,
      fun _ => ?_, .inl ?_, ?_, fun _ there => .inl (carries.mp there), .inl, fun below => ?_,
      ?_, id⟩
    · rw [calls_claims at_t]
      show s.lockCount + 1 + (s.entered t : ℤ) = s.lockCount + ((s.entered t + 1 : ℕ) : ℤ)
      omega
    · show 0 ≤ s.lockCount + 1
      omega
    · show s.lockCount ≤ s.lockCount + 1
      omega
    · intro n held ne
      obtain ⟨one, up, nobody⟩ := inv.token n held ne
      refine ⟨one, ?_, fun pos => nobody t (carries.mpr pos), .inr nobody⟩
      show 0 ≤ s.lockCount + 1
      omega
    · omega
    · rintro (wait | release)
      · cases wait
      · cases release

theorem kept_recurseStore (inv : Inv s) (room : s.lockCount < 0x7ffffffe) {n : ℤ}
    (at_t : s.calls t = .recurseStore n) :
    Kept ok s ({ s with recursionCount := inc32 n }.back t (s.entered t + 1)) t .idle
      (s.entered t + 1) := by
  have inside := inv.placed t
  have owner := inv.owner t
  have counts := inv.recursion t
  have claims := inv.claims_le t
  rw [calls_claims at_t] at claims
  rw [at_t] at inside owner counts
  have claims : ((s.entered t + 1 : ℕ) : ℤ) ≤ s.lockCount + 1 := claims
  have counts : n = s.entered t ∧ s.recursionCount = s.entered t := counts
  refine kept_carrier inv ((calls_carries at_t).mpr inside) rfl rfl rfl trivial ?_ (.inl rfl)
    (fun _ => ?_) ?_ (fun _ => inv.up t ((calls_carries at_t).mpr inside))
    (.inl (Nat.succ_pos _)) ⟨nofun, nofun⟩
  · exact owner.trans (iff_of_true inside (Nat.succ_pos _))
  · show inc32 n = ((s.entered t + 1 : ℕ) : ℤ)
    rw [counts.1, inc32_of_lt (by omega)]
    rfl
  · rw [calls_claims at_t]
    rfl

theorem kept_getSemaphore (inv : Inv s) {g : Get} {p : Purpose}
    (at_t : s.calls t = .get g p) : ∃ c d, Kept ok s (s.getSemaphore t p ok g) t c d := by
  have outside := inv.placed t
  have owner := inv.owner t
  have carries := calls_carries at_t
  have claims := calls_claims at_t
  rw [at_t] at outside owner
  have outside : s.entered t = 0 := outside
  rw [outside] at owner carries claims
  -- the thread goes on for the same purpose
  have goes : ∀ (c : Call) (sem : Option ℕ), (c = p.next ∨ c = .get .create p ∨
      c = .get .compareSwap p) →
      (s.lockSemaphore.isSome = true → sem = s.lockSemaphore) →
      (s.lockSemaphore = none → sem = none ∨ sem = some 0) →
      (c = p.next → sem.isSome = true) →
      ∃ c' d, Kept ok s ({ s with lockSemaphore := sem }.goto t c) t c' d := by
    intro c sem place same new present
    refine ⟨c, s.entered t, kept_place inv same new ?_ ?_ ?_ ?_ ?_ ?_⟩
    · rw [outside]
      rcases place with rfl | rfl | rfl <;> cases p <;> rfl
    · rw [carries, outside]
      rcases place with rfl | rfl | rfl <;> cases p <;> exact Iff.rfl
    · rw [at_t, outside]
      rcases place with rfl | rfl | rfl <;> cases p <;> exact Iff.rfl
    · rw [claims, outside]
      rcases place with rfl | rfl | rfl <;> cases p <;> rfl
    · rw [outside]
      rcases place with rfl | rfl | rfl <;> cases p <;>
        exact fun pos => absurd pos (Nat.lt_irrefl 0)
    · intro last
      refine present ?_
      rcases place with rfl | rfl | rfl
      · rfl
      all_goals
        rcases last with wait | release
        · cases wait
        · cases release
  cases g with
  | load =>
    rw [State.getSemaphore]
    split_ifs with some_
    · exact goes p.next s.lockSemaphore (.inl rfl) (fun _ => rfl) .inl fun _ => some_
    · refine goes (.get .create p) s.lockSemaphore (.inr (.inl rfl)) (fun _ => rfl) .inl ?_
      cases p <;> exact nofun
  | create =>
    rw [State.getSemaphore]
    split_ifs with made
    · refine goes (.get .compareSwap p) s.lockSemaphore (.inr (.inr rfl)) (fun _ => rfl)
        .inl ?_
      cases p <;> exact nofun
    · cases p with
      | wait =>
        refine ⟨.raised, s.entered t, kept_goto inv outside ?_ ?_ ?_ ?_ nofun⟩
        · rw [carries, outside]
          exact Iff.rfl
        · rw [at_t, outside]
          exact Iff.rfl
        · rw [claims, outside]
          rfl
        · rw [outside]
          exact fun pos => absurd pos (Nat.lt_irrefl 0)
      | release =>
        -- nobody is woken up
        have here : s.Carries t := carries.mpr trivial
        have noToken : ∀ n, s.lockSemaphore = some n → n = 0 := fun n => inv.noToken here
        refine ⟨.idle, 0, rfl, ?_, trivial, fun _ => .inl here, owner, fun _ _ => Iff.rfl,
          fun pos => absurd pos (Nat.lt_irrefl 0), .inl rfl, ?_,
          fun pos => absurd pos (Nat.lt_irrefl 0), .inl (Int.le_refl _), ?_, ?_, ?_, ?_, ?_, id⟩
        · rw [← outside]
          exact (Function.update_eq_self t s.entered).symm
        · rw [claims]
          rfl
        · exact fun n held ne => absurd (noToken n held) ne
        · exact fun created => absurd (created .release at_t) made
        · exact fun held => absurd (noToken 1 held) Nat.one_ne_zero
        · exact fun low _ => absurd (inv.up t here) (Int.not_le.mpr low)
        · rintro (wait | release)
          · cases wait
          · cases release
  | compareSwap =>
    rw [State.getSemaphore]
    refine goes p.next (some (s.lockSemaphore.getD 0)) (.inl rfl) (fun some_ => ?_) (fun none_ => ?_)
      fun _ => rfl
    · obtain ⟨n, held⟩ := Option.isSome_iff_exists.mp some_
      rw [held]
      rfl
    · rw [none_]
      exact .inr rfl

/-- `OwningThread`, then `RecursionCount`, of a thread that has the section. -/
theorem kept_own (inv : Inv s) (at_t : s.calls t = .own) :
    Kept ok s ({ s with owningThread := some t }.goto t .ownCount) t .ownCount 0 := by
  have outside := inv.placed t
  rw [at_t] at outside
  have outside : s.entered t = 0 := outside
  have here : s.Carries t := (calls_carries at_t).mpr trivial
  refine kept_carrier inv here rfl ?_ rfl rfl (iff_of_true rfl trivial) (.inr (.inl rfl))
    (fun pos => absurd pos (Nat.lt_irrefl 0)) ?_ (fun _ => inv.up t here) (.inl trivial)
    ⟨nofun, nofun⟩
  · rw [← outside]
    exact (Function.update_eq_self t s.entered).symm
  · rw [calls_claims at_t, outside]
    rfl

theorem kept_ownCount (inv : Inv s) (at_t : s.calls t = .ownCount) :
    Kept ok s ({ s with recursionCount := 1 }.back t 1) t .idle 1 := by
  have outside := inv.placed t
  have owner := inv.owner t
  rw [at_t] at outside owner
  have outside : s.entered t = 0 := outside
  have here : s.Carries t := (calls_carries at_t).mpr trivial
  refine kept_carrier inv here rfl rfl rfl trivial (owner.trans (iff_of_true trivial Nat.one_pos))
    (.inl rfl) (fun _ => rfl) ?_ (fun _ => inv.up t here) (.inl Nat.one_pos) ⟨nofun, nofun⟩
  rw [calls_claims at_t, outside]
  rfl

theorem kept_tryIncrement (inv : Inv s) (room : s.lockCount < 0x7ffffffe)
    (at_t : s.calls t = .tryIncrement) :
    Kept ok s ({ s with lockCount := inc32 s.lockCount }.goto t .recurse) t .recurse
      (s.entered t) := by
  have inside := inv.placed t
  have owner := inv.owner t
  have counts := inv.recursion t
  rw [at_t] at inside owner counts
  have here : s.Carries t := (calls_carries at_t).mpr inside
  have up := inv.up t here
  rw [inc32_of_lt room]
  refine kept_carrier inv here rfl (Function.update_eq_self t s.entered).symm rfl inside owner
    (.inl rfl) counts ?_ (fun _ => ?_) (.inl inside) ⟨nofun, nofun⟩
  · rw [calls_claims at_t]
    show s.lockCount + 1 + (s.entered t : ℤ) = s.lockCount + ((s.entered t + 1 : ℕ) : ℤ)
    omega
  · show 0 ≤ s.lockCount + 1
    omega

theorem kept_leaveStore (inv : Inv s) {n : ℤ} (at_t : s.calls t = .leaveStore n) :
    ∃ c d, Kept ok s ({ s with recursionCount := dec32 n }.goto t
      (if dec32 n ≠ 0 then .decrement else .disown)) t c d := by
  have inside := inv.placed t
  have owner := inv.owner t
  have counts := inv.recursion t
  rw [at_t] at inside owner counts
  have inside : 0 < s.entered t := inside
  have owner : s.owningThread = some t ↔ 0 < s.entered t := owner
  obtain ⟨rfl, same⟩ : n = s.entered t ∧ s.recursionCount = s.entered t := counts
  have here : s.Carries t := (calls_carries at_t).mpr inside
  rw [dec32_of_nonneg (Int.natCast_nonneg _)]
  by_cases more : (s.entered t : ℤ) - 1 ≠ 0
  · rw [if_pos more]
    refine ⟨.decrement, s.entered t, kept_carrier inv here rfl
      (Function.update_eq_self t s.entered).symm rfl ?_ owner (.inl rfl) ?_ ?_
      (fun _ => inv.up t here) (.inl inside) ⟨nofun, nofun⟩⟩
    · show 2 ≤ s.entered t
      omega
    · show (s.entered t : ℤ) - 1 + 1 = s.entered t
      omega
    · rw [calls_claims at_t]
      rfl
  · rw [if_neg more]
    refine ⟨.disown, s.entered t, kept_carrier inv here rfl
      (Function.update_eq_self t s.entered).symm rfl ?_ owner (.inl rfl) trivial ?_
      (fun _ => inv.up t here) (.inl inside) ⟨nofun, nofun⟩⟩
    · show s.entered t = 1
      omega
    · rw [calls_claims at_t]
      rfl

theorem kept_decrement (inv : Inv s) (at_t : s.calls t = .decrement) :
    Kept ok s ({ s with lockCount := dec32 s.lockCount }.back t (s.entered t - 1)) t .idle
      (s.entered t - 1) := by
  have inside := inv.placed t
  have owner := inv.owner t
  have counts := inv.recursion t
  have claims := inv.claims_le t
  rw [calls_claims at_t] at claims
  rw [at_t] at inside owner counts
  have inside : 2 ≤ s.entered t := inside
  have claims : (s.entered t : ℤ) ≤ s.lockCount + 1 := claims
  have counts : s.recursionCount + 1 = s.entered t := counts
  have pos : 0 < s.entered t := by omega
  have less : 0 < s.entered t - 1 := by omega
  have here : s.Carries t := (calls_carries at_t).mpr pos
  rw [dec32_of_nonneg (inv.up t here)]
  refine kept_carrier inv here rfl rfl rfl trivial (owner.trans (iff_of_true pos less)) (.inl rfl)
    (fun _ => ?_) ?_ (fun _ => ?_) (.inl less) ⟨nofun, nofun⟩
  · show s.recursionCount = ((s.entered t - 1 : ℕ) : ℤ)
    omega
  · rw [calls_claims at_t]
    show s.lockCount - 1 + (s.entered t : ℤ) = s.lockCount + ((s.entered t - 1 : ℕ) : ℤ)
    omega
  · show 0 ≤ s.lockCount - 1
    omega

theorem kept_disown (inv : Inv s) (at_t : s.calls t = .disown) :
    Kept ok s ({ s with owningThread := none }.goto t .lastDecrement) t .lastDecrement 1 := by
  have inside := inv.placed t
  rw [at_t] at inside
  have inside : s.entered t = 1 := inside
  have pos : 0 < s.entered t := by omega
  have here : s.Carries t := (calls_carries at_t).mpr pos
  refine kept_carrier inv here rfl ?_ rfl rfl (iff_of_false nofun id) (.inr (.inr rfl)) trivial ?_
    (fun _ => inv.up t here) (.inl Nat.one_pos) ⟨nofun, nofun⟩
  · rw [← inside]
    exact (Function.update_eq_self t s.entered).symm
  · rw [calls_claims at_t, inside]
    rfl

omit [Fintype τ] in
theorem goto_back (s : State τ) (t : τ) (n : ℕ) (c : Call) :
    ((s.back t n).goto t c).calls = Function.update s.calls t c := by
  rw [State.goto, State.back]
  exact Function.update_idem _ _ _

theorem kept_lastDecrement (inv : Inv s) (at_t : s.calls t = .lastDecrement) :
    ∃ c d, Kept ok s
      (if 0 ≤ dec32 s.lockCount then
        ({ s with lockCount := dec32 s.lockCount }.back t (s.entered t - 1)).goto t
          (.get .load .release)
      else { s with lockCount := dec32 s.lockCount }.back t (s.entered t - 1)) t c d := by
  have inside := inv.placed t
  have owner := inv.owner t
  rw [at_t] at inside owner
  have inside : s.entered t = 1 := inside
  have pos : 0 < s.entered t := by omega
  have here : s.Carries t := (calls_carries at_t).mpr pos
  have noOwner : s.owningThread ≠ some t := owner.mp
  have zero : s.entered t - 1 = 0 := by omega
  have claims : s.lockCount - 1 + (s.claims t : ℤ) = s.lockCount + ((0 : ℕ) : ℤ) := by
    rw [calls_claims at_t, inside]
    show s.lockCount - 1 + ((1 : ℕ) : ℤ) = s.lockCount + ((0 : ℕ) : ℤ)
    omega
  have none_ : 0 < 0 → s.recursionCount = ((0 : ℕ) : ℤ) := fun pos =>
    absurd pos (Nat.lt_irrefl 0)
  rw [dec32_of_nonneg (inv.up t here), zero]
  by_cases waits : 0 ≤ s.lockCount - 1
  · rw [if_pos waits]
    exact ⟨.get .load .release, 0, kept_carrier inv here (goto_back _ t 0 _) rfl rfl rfl
      (iff_of_false noOwner (Nat.lt_irrefl 0)) (.inl rfl) none_ claims (fun _ => waits)
      (.inl trivial) ⟨nofun, nofun⟩⟩
  · rw [if_neg waits]
    exact ⟨.idle, 0, kept_carrier inv here rfl rfl rfl trivial
      (iff_of_false noOwner (Nat.lt_irrefl 0)) (.inl rfl) none_ claims
      (fun pos => absurd pos (Nat.lt_irrefl 0)) (.inr (Int.not_le.mp waits)) ⟨nofun, nofun⟩⟩

/-! ## The runs -/

theorem go_kept (inv : Inv s) (room : s.lockCount < 0x7ffffffe)
    (stepped : s.go t ok (s.calls t) = some s') : ∃ c d, Kept ok s s' t c d := by
  have placed := inv.placed t
  have counts := inv.recursion t
  have owner := inv.owner t
  cases at_t : s.calls t with
  | idle =>
    rw [at_t] at stepped
    cases stepped
  | increment =>
    rw [at_t] at stepped
    cases stepped
    exact kept_increment inv room at_t
  | compareOwner =>
    rw [at_t] at stepped placed counts owner
    cases stepped
    have claims : ((Call.compareOwner).claims (s.entered t)) = s.claims t := (calls_claims at_t).symm
    by_cases mine : s.owningThread = some t
    · rw [if_pos mine]
      exact ⟨.recurse, s.entered t, kept_goto inv (owner.mp mine) (calls_carries at_t).symm
        (by rw [at_t]; exact Iff.rfl) claims counts nofun⟩
    · rw [if_neg mine]
      have outside : s.entered t = 0 := Nat.eq_zero_of_not_pos fun pos => mine (owner.mpr pos)
      exact ⟨.get .load .wait, s.entered t, kept_goto inv outside (calls_carries at_t).symm
        (by rw [at_t]; exact Iff.rfl) claims counts nofun⟩
  | recurse =>
    rw [at_t] at stepped placed counts
    cases stepped
    exact ⟨_, _, kept_goto inv placed (calls_carries at_t).symm (by rw [at_t]; exact Iff.rfl)
      (calls_claims at_t).symm ⟨counts placed, counts placed⟩ nofun⟩
  | recurseStore n =>
    rw [at_t] at stepped
    cases stepped
    exact ⟨_, _, kept_recurseStore inv room at_t⟩
  | get g p =>
    rw [at_t] at stepped
    cases stepped
    exact kept_getSemaphore inv at_t
  | wait =>
    rw [at_t, State.go] at stepped
    cases held : s.lockSemaphore with
    | none =>
      rw [held] at stepped
      cases stepped
    | some n =>
      rw [held] at stepped
      cases n with
      | zero => cases stepped
      | succ n =>
        cases stepped
        exact ⟨_, _, kept_wake inv at_t held⟩
  | raised =>
    rw [at_t] at stepped placed counts
    cases stepped
    exact ⟨_, _, kept_goto inv placed (calls_carries at_t).symm (by rw [at_t]; exact Iff.rfl)
      (calls_claims at_t).symm counts nofun⟩
  | own =>
    rw [at_t] at stepped
    cases stepped
    exact ⟨_, _, kept_own inv at_t⟩
  | ownCount =>
    rw [at_t] at stepped
    cases stepped
    exact ⟨_, _, kept_ownCount inv at_t⟩
  | trySwap =>
    rw [at_t, State.go] at stepped
    split_ifs at stepped with free
    · cases stepped
      exact ⟨_, _, kept_take inv free (calls_claims at_t)⟩
    · rw [at_t] at counts
      cases stepped
      exact ⟨_, _, kept_goto inv trivial (calls_carries at_t).symm (by rw [at_t]; exact Iff.rfl)
        (calls_claims at_t).symm counts nofun⟩
  | tryOwner =>
    rw [at_t] at stepped placed counts owner
    cases stepped
    by_cases mine : s.owningThread = some t
    · rw [if_pos mine]
      exact ⟨.tryIncrement, s.entered t, kept_goto inv (owner.mp mine) (calls_carries at_t).symm
        (by rw [at_t]; exact Iff.rfl) (calls_claims at_t).symm counts nofun⟩
    · rw [if_neg mine]
      exact ⟨.idle, s.entered t, kept_goto inv trivial (calls_carries at_t).symm
        (by rw [at_t]; exact Iff.rfl) (calls_claims at_t).symm counts nofun⟩
  | tryIncrement =>
    rw [at_t] at stepped
    cases stepped
    exact ⟨_, _, kept_tryIncrement inv room at_t⟩
  | leave =>
    rw [at_t] at stepped placed counts
    cases stepped
    exact ⟨_, _, kept_goto inv placed (calls_carries at_t).symm (by rw [at_t]; exact Iff.rfl)
      (calls_claims at_t).symm ⟨counts placed, counts placed⟩ nofun⟩
  | leaveStore n =>
    rw [at_t] at stepped
    cases stepped
    exact kept_leaveStore inv at_t
  | decrement =>
    rw [at_t] at stepped
    cases stepped
    exact ⟨_, _, kept_decrement inv at_t⟩
  | disown =>
    rw [at_t] at stepped
    cases stepped
    exact ⟨_, _, kept_disown inv at_t⟩
  | lastDecrement =>
    rw [at_t] at stepped
    cases stepped
    exact kept_lastDecrement inv at_t
  | release =>
    rw [at_t] at stepped
    cases stepped
    exact ⟨_, _, kept_release inv at_t (inv.present t (.inr at_t))⟩

theorem step_kept (inv : Inv s) {op : τ × Action} (fits : StepFits s op)
    (stepped : step s op = some s') :
    ∃ ok c d, Kept ok s s' op.1 c d ∧ (Created s op → ok = true) := by
  obtain ⟨t, action⟩ := op
  obtain ⟨left, room⟩ := fits
  have counts := inv.recursion t
  cases action with
  | go ok =>
    have stepped : s.go t ok (s.calls t) = some s' := by
      rw [← stepped, step.eq_def]
      cases s.calls t <;> rfl
    obtain ⟨c, d, kept⟩ := go_kept inv room stepped
    refine ⟨ok, c, d, kept, fun created => ?_⟩
    cases ok with
    | true => rfl
    | false => exact absurd rfl created
  | timeout =>
    cases at_t : s.calls t with
    | wait =>
      have placed := inv.placed t
      simp only [step, at_t] at stepped counts placed
      cases stepped
      exact ⟨true, _, _, kept_goto inv placed (calls_carries at_t).symm (by rw [at_t]; exact Iff.rfl)
        (calls_claims at_t).symm counts nofun, fun _ => rfl⟩
    | _ => simp only [step, at_t, reduceCtorEq] at stepped
  | enter =>
    cases at_t : s.calls t with
    | idle =>
      simp only [step, at_t] at stepped counts
      cases stepped
      exact ⟨true, _, _, kept_goto inv trivial (calls_carries at_t).symm
        (by rw [at_t]; exact Iff.rfl) (calls_claims at_t).symm counts nofun, fun _ => rfl⟩
    | _ => simp only [step, at_t, reduceCtorEq] at stepped
  | tryEnter =>
    cases at_t : s.calls t with
    | idle =>
      simp only [step, at_t] at stepped counts
      cases stepped
      exact ⟨true, _, _, kept_goto inv trivial (calls_carries at_t).symm
        (by rw [at_t]; exact Iff.rfl) (calls_claims at_t).symm counts nofun, fun _ => rfl⟩
    | _ => simp only [step, at_t, reduceCtorEq] at stepped
  | leave =>
    cases at_t : s.calls t with
    | idle =>
      simp only [step, at_t] at stepped counts
      cases stepped
      exact ⟨true, _, _, kept_goto inv (left rfl) (calls_carries at_t).symm
        (by rw [at_t]; exact Iff.rfl) (calls_claims at_t).symm counts nofun, fun _ => rfl⟩
    | _ => simp only [step, at_t, reduceCtorEq] at stepped

theorem init_inv : Inv (init : State τ) where
  unique _ _ carries _ := absurd carries (Nat.lt_irrefl 0)
  placed _ := trivial
  owner _ := iff_of_false nofun (Nat.lt_irrefl 0)
  recursion _ pos := absurd pos (Nat.lt_irrefl 0)
  count := by
    have zero : ∑ t : τ, (init : State τ).claims t = 0 := Finset.sum_eq_zero fun _ _ => rfl
    rw [zero]
    rfl
  up _ carries := absurd carries (Nat.lt_irrefl 0)
  token _ held := nomatch held
  present _ at_t := at_t.elim nofun nofun

theorem Inv.exclusive (inv : Inv s) : Exclusive s where
  exclusive t t' inside inside' := inv.unique t t' (carries_of_pos inside) (carries_of_pos inside')
  owner t at_t := by
    have owner := inv.owner t
    rw [at_t] at owner
    exact owner
  recursion t at_t := by
    have counts := inv.recursion t
    rw [at_t] at counts
    exact counts
  count := inv.count

theorem go_isSome {c : Call} (idle : c ≠ .idle) (wait : c ≠ .wait) :
    (s.go t true c).isSome = true := by
  cases c with
  | idle => exact absurd rfl idle
  | wait => exact absurd rfl wait
  | trySwap =>
    rw [State.go]
    split_ifs <;> rfl
  | _ => rfl

theorem step_go (s : State τ) (t : τ) (ok : Bool) : step s (t, .go ok) = s.go t ok (s.calls t) := by
  rw [step.eq_def]
  cases s.calls t <;> rfl

theorem Inv.awake (inv : Inv s) (supplied : Supplied s) : Awake s where
  supplied t at_t := by
    have claims := inv.claims_le t
    rw [calls_claims at_t] at claims
    have claims : ((s.entered t + 1 : ℕ) : ℤ) ≤ s.lockCount + 1 := claims
    rcases supplied (by omega) with ⟨t', carries⟩ | token
    · refine .inr ⟨t', carries, ?_⟩
      rw [step_go]
      have placed := inv.placed t'
      rw [calls_carries rfl] at carries
      cases at_t' : s.calls t' with
      | idle => exact .inr (by rw [CriticalSection.step, at_t']; rfl)
      | wait =>
        rw [at_t'] at placed carries
        exact absurd placed (Nat.ne_of_gt carries)
      | _ => exact .inl (go_isSome nofun nofun)
    · refine .inl ?_
      rw [step_go, at_t, State.go, token]
      rfl
  posted t at_t := by
    obtain ⟨n, held⟩ := Option.isSome_iff_exists.mp (inv.present t (.inr at_t))
    rw [held, inv.noToken ((calls_carries at_t).mpr trivial) held]

end Steps

variable {τ : Type} [DecidableEq τ] [Fintype τ] {s : State τ} {ops : List (τ × Action)}

theorem criticalSection_exclusive (meets : StepRun.Meets step StepFits init ops)
    (ran : StepRun.run step ops init = some s) : Exclusive s := by
  refine Inv.exclusive (StepRun.run_keeps (fun s op s' inv fits stepped => ?_) init_inv meets ran)
  obtain ⟨ok, c, d, kept, -⟩ := step_kept inv fits stepped
  exact inv.step kept

theorem criticalSection_awake
    (meets : StepRun.Meets step (fun s op => StepFits s op ∧ Created s op) init ops)
    (ran : StepRun.run step ops init = some s) : Awake s := by
  have both : Inv s ∧ Supplied s := by
    refine @StepRun.run_keeps _ _ step _ (fun s => Inv s ∧ Supplied s) ops init s
      (fun s op s' both fits stepped => ?_) ⟨init_inv, nofun⟩ meets ran
    obtain ⟨inv, supplied⟩ := both
    obtain ⟨ok, c, d, kept, made⟩ := step_kept inv fits.1 stepped
    exact ⟨inv.step kept, supplied.step kept fun _ _ => made fits.2⟩
  exact both.1.awake both.2

/-- A thread inside, and another one that waits for the semaphore it has created. -/
def handOver : List (Bool × Action) :=
  let enter := [(false, .enter), (false, .go true), (false, .go true), (false, .go true)]
  let wait := (true, .enter) :: List.replicate 5 (true, Action.go true)
  let leave := (false, .leave) :: List.replicate 6 (false, Action.go true)
  let wake := List.replicate 3 (true, Action.go true)
  enter ++ wait ++ leave ++ wake

theorem criticalSection_exclusive_handOver :
    ∃ s, StepRun.run step handOver init = some s ∧ Exclusive s :=
  ⟨_, rfl, criticalSection_exclusive (by decide : StepRun.Meets step StepFits init handOver) rfl⟩

theorem criticalSection_awake_handOver :
    ∃ s, StepRun.run step (handOver.take 10) init = some s ∧ Awake s :=
  ⟨_, rfl, criticalSection_awake (by decide : StepRun.Meets step
    (fun s op => StepFits s op ∧ Created s op) init (handOver.take 10)) rfl⟩

end Odin32.CriticalSection
