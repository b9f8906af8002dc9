import Odin32.UserTimers
import Mathlib.Data.List.Basic
import Mathlib.Data.Nat.Find
import Mathlib.Tactic.Common

/-! # The table of the window timers along a run

While every call is one that `StepFits` describes, the slots in use are the timers that PM runs,
and every call does what it is for. -/

set_option autoImplicit false

namespace Odin32.UserTimers

open State

variable {s : State}

/-- What every state of a run has, beside the timers that run. -/
structure Inv (s : State) : Prop extends s.Mirrors where
  windows : WindowsOk s.windows
  placed : ∀ i, s.Used i →
    ((s.timersArray i).hwnd = 0 ∧ (s.timersArray i).pmHwnd = 0 ∧ (s.timersArray i).id = i + 1) ∨
    (s.windows (s.timersArray i).hwnd = some (s.timersArray i).pmHwnd ∧
      (s.timersArray i).pmId = i + 1)
  reserved : ∀ i < nbTimers, (s.timersArray i).inUse = .userTimer →
    i < nbTimers - nbReservedTimers
  unique : ∀ sys hwnd id i j, s.Holds sys hwnd id i → s.Holds sys hwnd id j → i = j

/-! ## The lookups -/

theorem scan_some {p : Timer → Bool} {i : ℕ} (found : s.scan p = some i) :
    i < nbTimers ∧ p (s.timersArray i) = true ∧ ∀ j < i, p (s.timersArray j) = false := by
  rw [State.scan, List.find?_range_eq_some] at found
  refine ⟨List.mem_range.mp found.2.1, found.1, fun j lt => ?_⟩
  simpa using found.2.2 j lt

theorem scan_none {p : Timer → Bool} (missed : s.scan p = none) :
    ∀ i < nbTimers, p (s.timersArray i) = false := by
  intro i lt
  rw [State.scan, List.find?_eq_none] at missed
  simpa using missed i (List.mem_range.mpr lt)

theorem kind_ne_free (sys : Bool) : kind sys ≠ .free := by
  cases sys <;> exact fun h => Use.noConfusion h

theorem Holds.used {sys : Bool} {hwnd id i : ℕ} (holds : s.Holds sys hwnd id i) : s.Used i :=
  ⟨holds.1, holds.2.1 ▸ kind_ne_free sys⟩

theorem hit_iff {sys : Bool} {hwnd id i : ℕ} (lt : i < nbTimers) :
    hit sys hwnd id (s.timersArray i) = true ↔
      s.Holds true hwnd id i ∨ sys = false ∧ s.Holds false hwnd id i := by
  unfold hit Holds kind
  cases sys <;> cases use : (s.timersArray i).inUse <;> simp [lt]

/-- What a call to set a timer comes to: nothing, the timer of a slot that is started again, or a
timer in a free slot. -/
inductive SetCase (s : State) (sys : Bool) (hwnd id timeout proc : ℕ) (start : Start) :
    State × ℕ → Prop
  | refused (no : ¬ (hwnd = 0 ∨ s.windows hwnd ≠ none) ∨
      ∀ i < nbTimers, hit sys hwnd id (s.timersArray i) = false) :
      SetCase s sys hwnd id timeout proc start (s, 0)
  | again (i answer : ℕ) (lt : i < nbTimers) (can : CanSet s sys hwnd id) (answered : answer ≠ 0)
      (hits : hit sys hwnd id (s.timersArray i) = true)
      (first : ∀ j < i, hit sys hwnd id (s.timersArray j) = false) :
      SetCase s sys hwnd id timeout proc start
        ({ s with pm := (winStartTimer s.pm (s.timersArray i).pmHwnd (s.timersArray i).pmId
          timeout start).2 }, answer)
  | added (i pmHwnd answer : ℕ) (lt : i < nbTimers) (free : (s.timersArray i).inUse = .free)
      (user : sys = false → i < nbTimers - nbReservedTimers)
      (misses : ∀ j < nbTimers, hit sys hwnd id (s.timersArray j) = false)
      (can : CanSet s sys hwnd id)
      (window : hwnd = 0 ∧ pmHwnd = 0 ∨ hwnd ≠ 0 ∧ s.windows hwnd = some pmHwnd) :
      SetCase s sys hwnd id timeout proc start
        ({ s with
          timersArray := Function.update s.timersArray i ⟨kind sys, hwnd,
            if (winStartTimer s.pm pmHwnd (i + 1) timeout start).1 = 0 then 0
              else if hwnd = 0 then i + 1 else id, pmHwnd,
            (winStartTimer s.pm pmHwnd (i + 1) timeout start).1, proc⟩
          pm := (winStartTimer s.pm pmHwnd (i + 1) timeout start).2 }, answer)

theorem setTimer_case (s : State) (sys : Bool) (hwnd id timeout proc : ℕ) (start : Start) :
    SetCase s sys hwnd id timeout proc start (s.setTimer hwnd id timeout proc sys start) := by
  by_cases bad : hwnd ≠ 0 ∧ s.windows hwnd = none
  · rw [State.setTimer, if_pos bad]
    exact .refused (.inl fun window => window.elim bad.1 fun h => h bad.2)
  have window : hwnd = 0 ∨ s.windows hwnd ≠ none := by
    by_cases null : hwnd = 0
    · exact .inl null
    · exact .inr fun missing => bad ⟨null, missing⟩
  rw [State.setTimer, if_neg bad]
  dsimp only
  cases found : s.scan (hit sys hwnd id) with
  | some i =>
    obtain ⟨lt, hits, first⟩ := scan_some found
    refine .again i _ lt ⟨window, .inl ⟨i, lt, hits⟩⟩ ?_ hits first
    split_ifs with zero
    · exact Nat.one_ne_zero
    · exact zero
  | none =>
    have misses := scan_none found
    dsimp only
    cases empty : s.scan fun t => t.inUse = .free with
    | none => exact .refused (.inr misses)
    | some i =>
      obtain ⟨lt, free, -⟩ := scan_some empty
      have free := of_decide_eq_true free
      dsimp only
      by_cases reserved : (!sys && decide (i ≥ nbTimers - nbReservedTimers)) = true
      · rw [if_pos reserved]
        exact .refused (.inr misses)
      · rw [if_neg reserved]
        have user : sys = false → i < nbTimers - nbReservedTimers := by
          rintro rfl
          simpa [nbTimers, nbReservedTimers] using reserved
        have room : i < if sys then nbTimers else nbTimers - nbReservedTimers := by
          cases sys with
          | true => exact lt
          | false => exact user rfl
        have can : CanSet s sys hwnd id := ⟨window, .inr ⟨i, room, free⟩⟩
        by_cases null : hwnd = 0
        · rw [if_neg (not_not_intro null)]
          exact .added i 0 _ lt free user misses can (.inl ⟨null, rfl⟩)
        · obtain ⟨pmHwnd, there⟩ := Option.ne_none_iff_exists'.mp (window.resolve_left null)
          rw [if_pos null, if_pos null, there, Option.getD_some]
          exact .added i pmHwnd _ lt free user misses can (.inr ⟨null, there⟩)

/-! ## Timers that come, change and go -/

theorem WindowsOk.ne_zero (ok : WindowsOk s.windows) {hwnd pmHwnd : ℕ}
    (there : s.windows hwnd = some pmHwnd) : hwnd ≠ 0 := by
  rintro rfl
  rw [ok.null] at there
  cases there

theorem Inv.restart (inv : Inv s) {i : ℕ} (used : s.Used i) (timeout : ℕ) :
    Inv { s with pm := Function.update s.pm (s.key i) (some timeout) } where
  running := by
    intro key t there
    by_cases same : key = s.key i
    · exact ⟨i, used, same.symm⟩
    · exact inv.running key t ((Function.update_of_ne same _ _).symm.trans there)
  used := by
    intro j used_j
    obtain ⟨t, there⟩ := inv.used j used_j
    by_cases same : s.key j = s.key i
    · refine ⟨timeout, ?_⟩
      show Function.update s.pm (s.key i) (some timeout) (s.key j) = _
      rw [same, Function.update_self]
    · exact ⟨t, (Function.update_of_ne same _ _).trans there⟩
  one := inv.one
  windows := inv.windows
  placed := inv.placed
  reserved := inv.reserved
  unique := inv.unique

theorem kept_restart (inv : Inv s) {i : ℕ} (used : s.Used i) (timeout : ℕ) {mine : ℕ → Prop}
    (own : mine i) :
    Kept s { s with pm := Function.update s.pm (s.key i) (some timeout) } mine := by
  intro j used_j other
  refine ⟨rfl, Function.update_of_ne ?_ _ _⟩
  intro same
  rw [inv.one j i used_j used same] at other
  exact other own

theorem Inv.insert (inv : Inv s) {i : ℕ} (lt : i < nbTimers)
    (free : (s.timersArray i).inUse = .free) {t : Timer} (use : t.inUse ≠ .free)
    (placed : (t.hwnd = 0 ∧ t.pmHwnd = 0 ∧ t.id = i + 1) ∨
      (s.windows t.hwnd = some t.pmHwnd ∧ t.pmId = i + 1))
    (fresh : s.pm (t.pmHwnd, t.pmId) = none)
    (reserved : t.inUse = .userTimer → i < nbTimers - nbReservedTimers)
    (apart : ∀ sys j, s.Holds sys t.hwnd t.id j → t.inUse ≠ kind sys) (timeout : ℕ) :
    Inv { s with
      timersArray := Function.update s.timersArray i t
      pm := Function.update s.pm (t.pmHwnd, t.pmId) (some timeout) } := by
  obtain ⟨after, after_eq⟩ : ∃ after : State, after = { s with
      timersArray := Function.update s.timersArray i t
      pm := Function.update s.pm (t.pmHwnd, t.pmId) (some timeout) } := ⟨_, rfl⟩
  have this : after.timersArray i = t := by rw [after_eq]; exact Function.update_self ..
  have other : ∀ j ≠ i, after.timersArray j = s.timersArray j := by
    intro j ne
    rw [after_eq]
    exact Function.update_of_ne ne ..
  have pm : after.pm = Function.update s.pm (t.pmHwnd, t.pmId) (some timeout) := by rw [after_eq]
  have windows : after.windows = s.windows := by rw [after_eq]
  have off : ∀ j, s.Used j → j ≠ i := by
    rintro j used rfl
    exact used.2 free
  have used_other : ∀ j ≠ i, after.Used j ↔ s.Used j := by
    intro j ne
    rw [Used, Used, other j ne]
  have key_this : after.key i = (t.pmHwnd, t.pmId) := by rw [key, this]
  have key_other : ∀ j ≠ i, after.key j = s.key j := by
    intro j ne
    rw [key, key, other j ne]
  have ne_key : ∀ j, s.Used j → s.key j ≠ (t.pmHwnd, t.pmId) := by
    intro j used same
    obtain ⟨timeout, there⟩ := inv.used j used
    rw [same, fresh] at there
    cases there
  rw [← after_eq]
  refine ⟨⟨?_, ?_, ?_⟩, ?_, ?_, ?_, ?_⟩
  · intro key t' there
    rw [pm] at there
    by_cases same : key = (t.pmHwnd, t.pmId)
    · refine ⟨i, ⟨lt, ?_⟩, key_this.trans same.symm⟩
      rw [this]
      exact use
    · rw [Function.update_of_ne same] at there
      obtain ⟨j, used, at_j⟩ := inv.running key t' there
      exact ⟨j, (used_other j (off j used)).mpr used, (key_other j (off j used)).trans at_j⟩
  · intro j used
    rw [pm]
    by_cases same : j = i
    · subst same
      exact ⟨timeout, by rw [key_this, Function.update_self]⟩
    · have before := (used_other j same).mp used
      obtain ⟨t', there⟩ := inv.used j before
      exact ⟨t', by rw [key_other j same, Function.update_of_ne (ne_key j before), there]⟩
  · intro j k used_j used_k same
    by_cases j_this : j = i
    · by_cases k_this : k = i
      · exact j_this.trans k_this.symm
      · rw [j_this, key_this, key_other k k_this] at same
        exact absurd same.symm (ne_key k ((used_other k k_this).mp used_k))
    · have before_j := (used_other j j_this).mp used_j
      by_cases k_this : k = i
      · rw [k_this, key_this, key_other j j_this] at same
        exact absurd same (ne_key j before_j)
      · rw [key_other j j_this, key_other k k_this] at same
        exact inv.one j k before_j ((used_other k k_this).mp used_k) same
  · rw [windows]
    exact inv.windows
  · intro j used
    rw [windows]
    by_cases same : j = i
    · rw [same, this]
      exact placed
    · rw [other j same]
      exact inv.placed j ((used_other j same).mp used)
  · intro j lt_j user
    by_cases same : j = i
    · rw [same, this] at user
      rw [same]
      exact reserved user
    · rw [other j same] at user
      exact inv.reserved j lt_j user
  · have fresh_kind : ∀ sys hwnd id j, j ≠ i → after.Holds sys hwnd id i →
        after.Holds sys hwnd id j → False := by
      intro sys hwnd id j ne here there
      rw [Holds, this] at here
      rw [Holds, other j ne] at there
      obtain ⟨-, kind_t, rfl, rfl⟩ := here
      exact apart sys j there kind_t
    intro sys hwnd id j k here there
    by_cases j_this : j = i
    · by_cases k_this : k = i
      · exact j_this.trans k_this.symm
      · rw [j_this] at here
        exact (fresh_kind sys hwnd id k k_this here there).elim
    · by_cases k_this : k = i
      · rw [k_this] at there
        exact (fresh_kind sys hwnd id j j_this there here).elim
      · rw [Holds, other j j_this] at here
        rw [Holds, other k k_this] at there
        exact inv.unique sys hwnd id j k here there

theorem kept_insert (inv : Inv s) {i : ℕ} (free : (s.timersArray i).inUse = .free) (t : Timer)
    {key : ℕ × ℕ} (fresh : s.pm key = none) (timeout : ℕ) (mine : ℕ → Prop) :
    Kept s { s with
      timersArray := Function.update s.timersArray i t
      pm := Function.update s.pm key (some timeout) } mine := by
  intro j used _
  constructor
  · apply Function.update_of_ne
    rintro rfl
    exact used.2 free
  · apply Function.update_of_ne
    intro same
    obtain ⟨t', there⟩ := inv.used j used
    rw [same, fresh] at there
    cases there

theorem Inv.remove (inv : Inv s) {after : State} (gone : ℕ → Prop)
    (freed : ∀ i, gone i → ¬ after.Used i)
    (kept : ∀ i, ¬ gone i → after.timersArray i = s.timersArray i)
    (stopped : ∀ i, s.Used i → gone i → after.pm (s.key i) = none)
    (runs : ∀ i, s.Used i → ¬ gone i → after.pm (s.key i) = s.pm (s.key i))
    (old : ∀ key timeout, after.pm key = some timeout → s.pm key = some timeout)
    (windowsOk : WindowsOk after.windows)
    (windows : ∀ i, s.Used i → ¬ gone i → ∀ pmHwnd,
      s.windows (s.timersArray i).hwnd = some pmHwnd →
        after.windows (s.timersArray i).hwnd = some pmHwnd)
    (free : ∀ i < nbTimers, (after.timersArray i).inUse ≠ .free → ¬ gone i) : Inv after := by
  have stays : ∀ i, after.Used i → ¬ gone i ∧ s.Used i ∧ after.key i = s.key i := by
    intro i used
    have there : ¬ gone i := fun h => freed i h used
    rw [Used, kept i there] at used
    exact ⟨there, used, by rw [key, key, kept i there]⟩
  have holds : ∀ sys hwnd id i, after.Holds sys hwnd id i → s.Holds sys hwnd id i := by
    intro sys hwnd id i here
    have there := (stays i (Holds.used here)).1
    rwa [Holds, kept i there] at here
  refine ⟨⟨?_, ?_, ?_⟩, windowsOk, ?_, ?_, ?_⟩
  · intro key timeout runs_key
    obtain ⟨i, used, rfl⟩ := inv.running key timeout (old key timeout runs_key)
    have there : ¬ gone i := by
      intro h
      rw [stopped i used h] at runs_key
      cases runs_key
    refine ⟨i, ?_, ?_⟩
    · rw [Used, kept i there]
      exact used
    · rw [key, key, kept i there]
  · intro i used
    obtain ⟨there, before, same⟩ := stays i used
    rw [same, runs i before there]
    exact inv.used i before
  · intro i j used_i used_j same
    obtain ⟨-, before_i, key_i⟩ := stays i used_i
    obtain ⟨-, before_j, key_j⟩ := stays j used_j
    rw [key_i, key_j] at same
    exact inv.one i j before_i before_j same
  · intro i used
    obtain ⟨there, before, -⟩ := stays i used
    rw [kept i there]
    rcases inv.placed i before with null | ⟨window, pmId⟩
    · exact .inl null
    · exact .inr ⟨windows i before there _ window, pmId⟩
  · intro i lt user
    have there := free i lt (by rw [user]; exact fun h => Use.noConfusion h)
    rw [kept i there] at user
    exact inv.reserved i lt user
  · intro sys hwnd id i j here there
    exact inv.unique sys hwnd id i j (holds _ _ _ _ here) (holds _ _ _ _ there)

/-! ## The calls -/

theorem hit_holds {sys : Bool} {hwnd id i : ℕ} (lt : i < nbTimers)
    (hits : hit sys hwnd id (s.timersArray i) = true)
    (first : ∀ j < i, hit sys hwnd id (s.timersArray j) = false)
    (user : sys = false → ∀ j, s.Holds true hwnd id j → ∃ k < j, s.Holds false hwnd id k) :
    s.Holds sys hwnd id i := by
  rcases (hit_iff lt).mp hits with system | ⟨rfl, holds⟩
  · cases sys with
    | true => exact system
    | false =>
      obtain ⟨k, before, holds⟩ := user rfl i system
      have := (hit_iff holds.1).mpr (.inr ⟨rfl, holds⟩)
      rw [first k before] at this
      exact Bool.noConfusion this
  · exact holds

theorem holds_hit {sys : Bool} {hwnd id i : ℕ} (holds : s.Holds sys hwnd id i) :
    hit sys hwnd id (s.timersArray i) = true := by
  cases sys with
  | true => exact (hit_iff holds.1).mpr (.inl holds)
  | false => exact (hit_iff holds.1).mpr (.inr ⟨rfl, holds⟩)

theorem winStartTimer_ok (pm : ℕ × ℕ → Option ℕ) (hwnd idTimer timeout : ℕ) {start : Start}
    (works : start.fails = false) : winStartTimer pm hwnd idTimer timeout start =
      (if hwnd = 0 then start.fresh else idTimer,
        Function.update pm (hwnd, if hwnd = 0 then start.fresh else idTimer) (some timeout)) := by
  rw [winStartTimer, works, if_neg Bool.false_ne_true]

theorem Holds.window (inv : Inv s) {sys : Bool} {hwnd id i : ℕ}
    (holds : s.Holds sys hwnd id i) : hwnd = 0 ∨ s.windows hwnd ≠ none := by
  rw [← holds.2.2.1]
  rcases inv.placed i (Holds.used holds) with null | window
  · exact .inl null.1
  · exact .inr (by rw [window.1]; exact Option.some_ne_none _)

theorem setTimer_right (inv : Inv s) {sys : Bool} {hwnd id timeout proc : ℕ} {start : Start}
    (legal : start.fresh ≠ 0 ∧ s.pm (0, start.fresh) = none)
    (fits : SetFits s sys hwnd id proc start.fails) :
    SetRight s sys hwnd id timeout proc start.fails
        (s.setTimer hwnd id timeout proc sys start) ∧
      Inv (s.setTimer hwnd id timeout proc sys start).1 := by
  have outcome := setTimer_case s sys hwnd id timeout proc start
  generalize s.setTimer hwnd id timeout proc sys start = result at outcome
  cases outcome with
  | refused no =>
    refine ⟨⟨fun _ => rfl, ?_, fun i _ _ => ⟨rfl, rfl⟩⟩, inv⟩
    intro _ i holds
    rcases no with no | misses
    · exact absurd (Holds.window inv holds) no
    · have := misses i holds.1
      rw [holds_hit holds] at this
      exact Bool.noConfusion this
  | again i answer lt can answered hits first =>
    have works := fits.starts can
    have holds := hit_holds lt hits first fits.user
    have used := Holds.used holds
    obtain ⟨window, callback⟩ := fits.callback i holds
    have hwnd_i : (s.timersArray i).hwnd = hwnd := holds.2.2.1
    have some_window : (s.timersArray i).pmHwnd ≠ 0 := by
      rcases inv.placed i used with null | there
      · exact absurd (hwnd_i.symm.trans null.1) window
      · exact inv.windows.handle _ _ there.1
    rw [winStartTimer_ok _ _ _ _ works, if_neg some_window]
    refine ⟨⟨fun fails => ?_, ?_, kept_restart inv used timeout holds⟩, inv.restart used timeout⟩
    · rw [works] at fails
      exact Bool.noConfusion fails
    · intro _ j holds_j
      obtain rfl := inv.unique _ _ _ _ _ holds_j holds
      refine ⟨answered, ?_, Function.update_self ..⟩
      rw [← callback]
  | added i pmHwnd answer lt free user misses can window =>
    have works := fits.starts can
    obtain ⟨pmId, pmId_eq⟩ : ∃ pmId, pmId = if pmHwnd = 0 then start.fresh else i + 1 := ⟨_, rfl⟩
    rw [winStartTimer_ok _ _ _ _ works, ← pmId_eq]
    have nonzero : pmId ≠ 0 := by
      rw [pmId_eq]
      split_ifs
      · exact legal.1
      · exact Nat.succ_ne_zero i
    have fresh : s.pm (pmHwnd, pmId) = none := by
      rcases window with ⟨-, rfl⟩ | ⟨-, there⟩
      · rw [pmId_eq, if_pos rfl]
        exact legal.2
      · have handle := inv.windows.handle _ _ there
        rw [pmId_eq, if_neg handle]
        by_contra runs
        obtain ⟨t, runs⟩ := Option.ne_none_iff_exists'.mp runs
        obtain ⟨j, used, at_j⟩ := inv.running _ _ runs
        obtain ⟨pmHwnd_j, pmId_j⟩ := Prod.mk.inj at_j
        rcases inv.placed j used with null | placed
        · exact handle (pmHwnd_j.symm.trans null.2.1)
        · have same : j = i := by omega
          rw [same] at used
          exact used.2 free
    have no_hit : ∀ j, ¬ s.Holds sys hwnd id j := by
      intro j holds
      have := misses j holds.1
      rw [holds_hit holds] at this
      exact Bool.noConfusion this
    rw [if_neg nonzero]
    refine ⟨⟨fun fails => ?_, fun _ j holds => absurd holds (no_hit j),
      kept_insert inv free _ fresh timeout _⟩, ?_⟩
    · rw [works] at fails
      exact Bool.noConfusion fails
    · refine inv.insert lt free (kind_ne_free sys) ?_ fresh ?_ ?_ timeout
      · rcases window with ⟨null, rfl⟩ | ⟨-, there⟩
        · exact .inl ⟨null, rfl, if_pos null⟩
        · exact .inr ⟨there, pmId_eq.trans (if_neg (inv.windows.handle _ _ there))⟩
      · intro use
        apply user
        cases sys with
        | true => exact Use.noConfusion use
        | false => rfl
      · intro sys' j holds same
        have sys_eq : sys' = sys := by
          cases sys <;> cases sys' <;> first | rfl | exact Use.noConfusion same
        subst sys_eq
        by_cases null : hwnd = 0
        · -- the timers without a window have ids of their own slots
          have used := Holds.used holds
          obtain ⟨-, -, hwnd_j, id_j⟩ := holds
          dsimp only at hwnd_j id_j
          rw [if_pos null] at id_j
          rcases inv.placed j used with ⟨-, -, own⟩ | placed
          · have same : j = i := by omega
            rw [same] at used
            exact used.2 free
          · exact inv.windows.ne_zero placed.1 (hwnd_j.trans null)
        · dsimp only at holds
          rw [if_neg null] at holds
          exact no_hit j holds

/-- A slot is freed, and its timer stopped. -/
def State.release (s : State) (i : ℕ) : State :=
  { s with
    timersArray := Function.update s.timersArray i
      { s.timersArray i with inUse := .free, pmHwnd := 0, pmId := 0 }
    pm := Function.update s.pm (s.key i) none }

theorem release_free (s : State) (i : ℕ) : ((s.release i).timersArray i).inUse = .free := by
  simp only [State.release, Function.update_self]

theorem release_other (s : State) {i j : ℕ} (ne : j ≠ i) :
    (s.release i).timersArray j = s.timersArray j := Function.update_of_ne ne ..

theorem release_stopped (s : State) (i : ℕ) : (s.release i).pm (s.key i) = none :=
  Function.update_self ..

theorem release_runs (s : State) {i : ℕ} {key : ℕ × ℕ} (ne : key ≠ s.key i) :
    (s.release i).pm key = s.pm key := Function.update_of_ne ne ..

theorem Inv.release (inv : Inv s) {i : ℕ} (used : s.Used i) : Inv (s.release i) := by
  apply inv.remove fun j => j = i
  · rintro j rfl used
    exact used.2 (release_free s j)
  · exact fun j other => release_other s other
  · rintro j - rfl
    exact release_stopped s j
  · exact fun j used_j other =>
      release_runs s fun same => other (inv.one j i used_j used same)
  · intro key timeout there
    by_cases same : key = s.key i
    · rw [same, release_stopped] at there
      cases there
    · rwa [release_runs s same] at there
  · exact inv.windows
  · exact fun _ _ _ _ there => there
  · rintro j lt use rfl
    exact use (release_free s j)

theorem kept_release (inv : Inv s) {i : ℕ} (used : s.Used i) {mine : ℕ → Prop} (own : mine i) :
    Kept s (s.release i) mine := by
  intro j used_j other
  have ne : j ≠ i := by
    rintro rfl
    exact other own
  exact ⟨release_other s ne, release_runs s fun same => ne (inv.one j i used_j used same)⟩

theorem killTimer_eq (s : State) (sys : Bool) (hwnd id : ℕ) :
    (s.killTimer hwnd id sys = (s, 0) ∧ ∀ i < nbTimers,
        hit sys hwnd id (s.timersArray i) = true → (∀ j < i,
          hit sys hwnd id (s.timersArray j) = false) → sys = false ∧
            (i ≥ nbTimers - nbReservedTimers ∨ s.Holds true hwnd id i)) ∨
      ∃ i, s.Holds sys hwnd id i ∧ s.killTimer hwnd id sys = (s.release i, 1) := by
  rw [State.killTimer]
  cases found : s.scan (hit sys hwnd id) with
  | none =>
    refine .inl ⟨rfl, fun i lt hits _ => ?_⟩
    rw [scan_none found i lt] at hits
    exact Bool.noConfusion hits
  | some i =>
    obtain ⟨lt, hits, first⟩ := scan_some found
    have only : ∀ j < nbTimers, hit sys hwnd id (s.timersArray j) = true →
        (∀ k < j, hit sys hwnd id (s.timersArray k) = false) → j = i := by
      intro j _ hits_j first_j
      rcases Nat.lt_trichotomy j i with lt | eq | gt
      · rw [first j lt] at hits_j
        exact Bool.noConfusion hits_j
      · exact eq
      · rw [first_j i gt] at hits
        exact Bool.noConfusion hits
    dsimp only
    rcases (hit_iff lt).mp hits with system | ⟨rfl, holds⟩
    · cases sys with
      | false =>
        rw [if_pos (by rw [system.2.1]; simp [kind])]
        refine .inl ⟨rfl, fun j lt_j hits_j first_j => ?_⟩
        rw [only j lt_j hits_j first_j]
        exact ⟨rfl, .inr system⟩
      | true =>
        rw [if_neg (by rw [system.2.1]; simp [kind])]
        exact .inr ⟨i, system, rfl⟩
    · by_cases far : i ≥ nbTimers - nbReservedTimers
      · rw [if_pos (by simp [far])]
        refine .inl ⟨rfl, fun j lt_j hits_j first_j => ?_⟩
        rw [only j lt_j hits_j first_j]
        exact ⟨rfl, .inl far⟩
      · rw [if_neg (by rw [holds.2.1]; simp [kind, far])]
        exact .inr ⟨i, holds, rfl⟩

theorem killTimer_right (inv : Inv s) {sys : Bool} {hwnd id : ℕ}
    (fits : sys = false → ∀ i j, s.Holds false hwnd id i → s.Holds true hwnd id j → i < j) :
    KillRight s sys hwnd id (s.killTimer hwnd id sys) ∧ Inv (s.killTimer hwnd id sys).1 := by
  rcases killTimer_eq s sys hwnd id with ⟨eq, first⟩ | ⟨i, holds, eq⟩
  · rw [eq]
    refine ⟨⟨fun i holds => ?_, fun _ => rfl, fun i _ _ => ⟨rfl, rfl⟩⟩, inv⟩
    exfalso
    -- the first slot that the lookup hits is not behind the timer itself
    have some_hit : ∃ j, j < nbTimers ∧ hit sys hwnd id (s.timersArray j) = true :=
      ⟨i, holds.1, holds_hit holds⟩
    obtain ⟨lt, hits⟩ := Nat.find_spec some_hit
    have before : ∀ k < Nat.find some_hit, hit sys hwnd id (s.timersArray k) = false := by
      intro k lt_k
      have := Nat.find_min some_hit lt_k
      simpa [show k < nbTimers by omega] using this
    have le : Nat.find some_hit ≤ i := Nat.find_min' some_hit ⟨holds.1, holds_hit holds⟩
    obtain ⟨rfl, far | system⟩ := first _ lt hits before
    · have := inv.reserved i holds.1 holds.2.1
      omega
    · have := fits rfl i _ holds system
      omega
  · rw [eq]
    have used := Holds.used holds
    refine ⟨⟨?_, fun missing => absurd holds (missing i), kept_release inv used holds⟩,
      inv.release used⟩
    intro j holds_j
    obtain rfl := inv.unique _ _ _ _ _ holds_j holds
    exact ⟨rfl, fun used => used.2 (release_free s j), release_stopped s j⟩

theorem destroyWindow_right (inv : Inv s) (hwnd : ℕ) :
    StepRight s (.destroyWindow hwnd) ∧ Inv (s.destroyWindow hwnd) := by
  cases window : s.windows hwnd with
  | none =>
    have same : s.destroyWindow hwnd = s := by
      have windows : Function.update s.windows hwnd none = s.windows := by
        rw [← window, Function.update_eq_self]
      have runs : (fun key : ℕ × ℕ => if some key.1 = s.windows hwnd then none else s.pm key) =
          s.pm := by
        funext key
        rw [window]
        exact if_neg fun h => by cases h
      rw [State.destroyWindow, State.killTimerFromWindow, if_pos window, windows, runs]
    refine ⟨⟨fun there => absurd window there, ?_⟩, ?_⟩
    · show Kept s (s.destroyWindow hwnd) _
      rw [same]
      exact fun i _ _ => ⟨rfl, rfl⟩
    · rw [same]
      exact inv
  | some pmHwnd =>
    obtain ⟨after, after_eq⟩ : ∃ after, after = s.destroyWindow hwnd := ⟨_, rfl⟩
    have slots : ∀ i, after.timersArray i =
        if i < nbTimers ∧ (s.timersArray i).inUse ≠ .free ∧ (s.timersArray i).hwnd = hwnd then
          { s.timersArray i with inUse := .free, pmHwnd := 0, pmId := 0 }
        else s.timersArray i := by
      intro i
      rw [after_eq, State.destroyWindow, State.killTimerFromWindow,
        if_neg (by rw [window]; exact Option.some_ne_none _)]
    have pm : ∀ key, after.pm key = if key.1 = pmHwnd then none else s.pm key := by
      intro key
      have : after.pm key = if some key.1 = s.windows hwnd then none else s.pm key := by
        rw [after_eq]
        rfl
      rw [this, window]
      simp only [Option.some.injEq]
    have windows : after.windows = Function.update s.windows hwnd none := by
      rw [after_eq]
      rw [State.destroyWindow, State.killTimerFromWindow,
        if_neg (by rw [window]; exact Option.some_ne_none _)]
    let gone : ℕ → Prop := fun i => s.Used i ∧ (s.timersArray i).hwnd = hwnd
    have kept : ∀ i, ¬ gone i → after.timersArray i = s.timersArray i := by
      intro i other
      rw [slots, if_neg]
      exact fun h => other ⟨⟨h.1, h.2.1⟩, h.2.2⟩
    have freed : ∀ i, gone i → (after.timersArray i).inUse = .free := by
      intro i h
      rw [slots, if_pos ⟨h.1.1, h.1.2, h.2⟩]
    have own : ∀ i, s.Used i → ((s.key i).1 = pmHwnd ↔ (s.timersArray i).hwnd = hwnd) := by
      intro i used
      show (s.timersArray i).pmHwnd = pmHwnd ↔ _
      rcases inv.placed i used with ⟨null, pm_null, -⟩ | ⟨there, -⟩
      · rw [null, pm_null]
        constructor
        · intro zero
          exact absurd zero.symm (inv.windows.handle _ _ window)
        · intro zero
          exact absurd zero.symm (inv.windows.ne_zero window)
      · constructor
        · intro same
          rw [same] at there
          exact inv.windows.one _ _ _ there window
        · intro same
          rw [same, window] at there
          exact (Option.some.inj there).symm
    have runs : ∀ i, s.Used i → ¬ gone i → after.pm (s.key i) = s.pm (s.key i) := by
      intro i used other
      rw [pm, if_neg]
      exact fun same => other ⟨used, (own i used).mp same⟩
    have inv' : Inv after := by
      apply inv.remove gone
      · exact fun i h used => used.2 (freed i h)
      · exact kept
      · intro i used h
        rw [pm, if_pos ((own i used).mpr h.2)]
      · exact runs
      · intro key timeout there
        rw [pm] at there
        split_ifs at there
        exact there
      · rw [windows]
        refine ⟨?_, ?_, ?_⟩
        · rw [Function.update_of_ne (inv.windows.ne_zero window).symm]
          exact inv.windows.null
        · intro h o there
          rw [Function.update_apply] at there
          split_ifs at there
          exact inv.windows.handle h o there
        · intro h h' o there there'
          rw [Function.update_apply] at there there'
          split_ifs at there there'
          exact inv.windows.one h h' o there there'
      · intro i used other pmHwnd' there
        rw [windows, Function.update_of_ne (fun same => other ⟨used, same⟩), there]
      · intro i lt use h
        exact use (freed i h)
    have right : StepRight s (.destroyWindow hwnd) := by
      refine ⟨?_, ?_⟩
      · intro _ i used same
        have used : after.Used i := by
          rw [after_eq]
          exact used
        by_cases before : s.Used i
        · exact used.2 (freed i ⟨before, same⟩)
        · rw [Used, kept i fun h => before h.1] at used
          exact before used
      · show Kept s (s.destroyWindow hwnd) _
        rw [← after_eq]
        exact fun i used other => ⟨kept i fun h => other h.2, runs i used fun h => other h.2⟩
    rw [← after_eq]
    exact ⟨right, inv'⟩

theorem createWindow_inv (inv : Inv s) {hwnd hwndOS2 : ℕ}
    (legal : Legal s (.createWindow hwnd hwndOS2)) :
    Inv { s with windows := Function.update s.windows hwnd (some hwndOS2) } := by
  obtain ⟨nonzero, handle, missing, new⟩ := legal
  apply inv.remove fun _ => False
  · exact fun i h => h.elim
  · exact fun i _ => rfl
  · exact fun i _ h => h.elim
  · exact fun i _ _ => rfl
  · exact fun key timeout there => there
  · refine ⟨?_, ?_, ?_⟩
    · exact (Function.update_of_ne nonzero.symm _ _).trans inv.windows.null
    · intro h o there
      dsimp only at there
      rw [Function.update_apply] at there
      split_ifs at there
      · rw [← Option.some.inj there]
        exact handle
      · exact inv.windows.handle h o there
    · intro h h' o there there'
      dsimp only at there there'
      rw [Function.update_apply] at there there'
      split_ifs at there there' with same same' same'
      · exact same.trans same'.symm
      · rw [← Option.some.inj there] at there'
        exact absurd there' (new h')
      · rw [← Option.some.inj there'] at there
        exact absurd there (new h)
      · exact inv.windows.one h h' o there there'
  · intro i _ _ pmHwnd there
    refine (Function.update_of_ne ?_ _ _).trans there
    intro same
    rw [same, missing] at there
    cases there
  · exact fun i _ _ h => h

/-! ## Runs -/

theorem step_right (inv : Inv s) {op : Op} (legal : Legal s op) (fits : StepFits s op) :
    StepRight s op ∧ Inv (step s op).1 := by
  cases op with
  | setTimer sys hwnd id timeout proc start => exact setTimer_right inv legal fits
  | killTimer sys hwnd id => exact killTimer_right inv fits
  | isTimerValid hwnd id proc =>
    refine ⟨fun valid => ?_, inv⟩
    have valid : s.isTimerValid hwnd id proc = 1 := valid
    rw [State.isTimerValid] at valid
    cases found : s.scan fun t => t.hwnd = hwnd && t.id = id && t.proc = proc with
    | none =>
      rw [found] at valid
      exact absurd valid Nat.zero_ne_one
    | some i =>
      obtain ⟨lt, hits, -⟩ := scan_some found
      simp only [Bool.and_eq_true, decide_eq_true_eq] at hits
      obtain ⟨⟨at_hwnd, at_id⟩, at_proc⟩ := hits
      by_cases use : (s.timersArray i).inUse = .free
      · exact fits i lt use at_hwnd at_id at_proc
      · exact ⟨i, ⟨lt, use⟩, at_hwnd, at_id, at_proc⟩
  | destroyWindow hwnd => exact destroyWindow_right inv hwnd
  | createWindow hwnd hwndOS2 =>
    exact ⟨fun i _ _ => ⟨rfl, rfl⟩, createWindow_inv inv legal⟩

theorem runPromised_from (ops : List Op) (s : State) (inv : Inv s) (legal : RunLegal s ops)
    (fits : RunFits s ops) : RunPromised s ops := by
  induction ops generalizing s with
  | nil => exact inv.toMirrors
  | cons op ops ih =>
    obtain ⟨right, inv'⟩ := step_right inv legal.1 fits.1
    exact ⟨inv.toMirrors, right, ih _ inv' legal.2 fits.2⟩

theorem init_inv {windows : ℕ → Option ℕ} (ok : WindowsOk windows) : Inv (init windows) where
  running key timeout there := by cases there
  used i used := absurd rfl used.2
  one i j used := absurd rfl used.2
  windows := ok
  placed i used := absurd rfl used.2
  reserved i lt user := by cases user
  unique sys hwnd id i j holds := absurd rfl (Holds.used holds).2

/-- While no start fails, no timer is set again without a window or with another callback, no
system timer stands before the user timer of its window and id, and no free slot still looks like
the timer that is asked for, the table mirrors the timers that run. -/
theorem userTimers_promised {windows : ℕ → Option ℕ} (ok : WindowsOk windows) (ops : List Op)
    (legal : RunLegal (init windows) ops) (fits : RunFits (init windows) ops) :
    RunPromised (init windows) ops :=
  runPromised_from ops _ (init_inv ok) legal fits

def oneWindow (hwnd : ℕ) : Option ℕ := if hwnd = 5 then some 100 else none

theorem oneWindow_ok : WindowsOk oneWindow where
  null := rfl
  handle hwnd hwndOS2 there := by
    unfold oneWindow at there
    split_ifs at there
    rw [← Option.some.inj there]
    decide
  one hwnd hwnd' hwndOS2 there there' := by
    unfold oneWindow at there there'
    split_ifs at there there' with same same'
    exact same.trans same'.symm

/-- A user and a system timer of one window, the user timer with a second timeout, then killed, and
one more timer until the window is destroyed. -/
def bothKinds : List Op :=
  [.setTimer false 5 1 100 7 ⟨false, 1⟩, .setTimer true 5 1 50 8 ⟨false, 1⟩,
    .setTimer false 5 1 200 7 ⟨false, 1⟩, .isTimerValid 5 1 7, .killTimer false 5 1,
    .setTimer true 5 2 50 0 ⟨false, 1⟩, .destroyWindow 5]

theorem bothKinds_legal : RunLegal (init oneWindow) bothKinds := by
  refine ⟨?_, ?_, ?_, trivial, trivial, ?_, trivial, trivial⟩ <;>
    exact ⟨by decide, by decide +kernel⟩

theorem userTimers_promised_bothKinds : RunPromised (init oneWindow) bothKinds :=
  userTimers_promised oneWindow_ok bothKinds bothKinds_legal (by decide +kernel)

/-- A start that fails leaves a slot in use, and does not return 0. -/
theorem failedStart_not_promised :
    ¬ ∀ (windows : ℕ → Option ℕ), WindowsOk windows → ∀ ops, RunLegal (init windows) ops →
      RunPromised (init windows) ops := by
  intro all
  have legal : RunLegal (init oneWindow) [.setTimer false 5 1 100 7 ⟨true, 1⟩] :=
    ⟨⟨by decide, by decide⟩, trivial⟩
  have right := (all oneWindow oneWindow_ok _ legal).2.1.failing rfl
  have answer := congrArg Prod.snd right
  revert answer
  decide +kernel

end Odin32.UserTimers
