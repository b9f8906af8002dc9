import Odin32.TimerResolution
import Mathlib.Data.List.Basic

/-! # Runs of timer resolution requests

The list is a stack: a request ends only while it is the newest one. The minimum of the
periods is never found, since the search begins at `-1`. -/

set_option autoImplicit false

namespace Odin32.TimerResolution

open LinkedList

variable {s s' : State} {cells : List Addr} {l : List ℤ} {op : Op}

/-- The list of a state, with periods the range check lets through. -/
structure Inv (s : State) (cells : List Addr) (l : List ℤ) : Prop where
  chain : Chain OS2TimerResolution.next s.heap s.sTimerResolutions cells
  periods : cells.map (fun a => (s.heap a).map OS2TimerResolution.dwPeriod) = l.map some
  enough : cells.length ≤ s.allocated
  positive : ∀ p ∈ l, 0 < p

theorem inv_init : Inv State.init [] [] where
  chain := rfl
  periods := rfl
  enough := Nat.le_refl 0
  positive _ mem := absurd mem List.not_mem_nil

theorem intOf_pos {c : UInt32} (ok : accepted c = true) : 0 < intOf c := by
  simp only [accepted, os2timerResolutionMinimum, os2timerResolutionMaximum, Bool.not_eq_true',
    Bool.or_eq_false_iff, decide_eq_false_iff_not, UInt32.lt_iff_toNat_lt] at ok
  obtain ⟨low, high⟩ := ok
  have low' : 1 ≤ c.toNat := Nat.le_of_not_lt low
  have high' : c.toNat ≤ 0x7ffffffe := Nat.le_of_not_lt high
  have small : 2 * c.toBitVec.toNat < 2 ^ 32 := by
    rw [UInt32.toNat_toBitVec]
    omega
  rw [intOf, BitVec.toInt_eq_toNat_of_lt small, UInt32.toNat_toBitVec]
  omega

theorem Inv.length (inv : Inv s cells l) : cells.length = l.length := by
  simpa using congrArg List.length inv.periods

theorem Inv.walk_last (inv : Inv s cells l) {a : Addr} (head : s.sTimerResolutions = some a) :
    ∃ front last, cells = front ++ [last] ∧
      walk s (fun _ _ => false) a = some (last, none) := by
  have chain := inv.chain
  have enough := inv.enough
  cases cells with
  | nil => exact absurd (head.symm.trans chain) (by simp)
  | cons b rest =>
    obtain rfl : a = b := Option.some.inj (head.symm.trans chain.1)
    rw [head] at chain
    obtain ⟨front, last, more, split, found, -, after⟩ :=
      chain.seek (fun _ _ => false) (Nat.lt_of_succ_le enough)
    have ended : more = [] := by
      cases more with
      | nil => rfl
      | cons c more =>
        obtain ⟨cell, here⟩ := chain.live (a := c) (by rw [split]; simp)
        exact absurd (after c cell rfl here) (by simp)
    subst ended
    refine ⟨front, last, split, ?_⟩
    rw [walk, found]
    rfl

theorem Inv.walk_before {last : Addr} (inv : Inv s (cells ++ [last]) l) {a : Addr}
    (head : s.sTimerResolutions = some a) (ne : a ≠ last) :
    ∃ front before, cells = front ++ [before] ∧
      walk s (fun b _ => b == last) a = some (before, some last) := by
  have chain := inv.chain
  have enough := inv.enough
  have nodup := List.nodup_append.mp chain.nodup
  cases cells with
  | nil => exact absurd (Option.some.inj (head.symm.trans chain.1)) ne
  | cons b rest =>
    obtain rfl : a = b := Option.some.inj (head.symm.trans chain.1)
    rw [head] at chain
    obtain ⟨front, before, more, split, found, earlier, after⟩ :=
      chain.seek (fun b _ => b == last) (Nat.lt_of_succ_le enough)
    obtain ⟨cell, here⟩ := chain.live (a := last) (by simp)
    have split' : (a :: rest) ++ [last] = (front ++ [before]) ++ more := by
      rw [List.append_assoc, List.singleton_append]
      exact split
    cases more with
    | nil =>
      -- the last entry is behind the first one, where the walk would have stopped
      rw [List.append_nil] at split'
      obtain ⟨same, eq⟩ := List.append_inj' split' rfl
      obtain rfl : last = before := List.singleton_inj.mp eq
      have mem : last ∈ (front ++ [last]).tail := by
        rw [← same]
        simp
      exact absurd (earlier last cell mem here) (by simp)
    | cons c more =>
      obtain ⟨cell', there⟩ := chain.live (a := c) (by rw [split']; simp)
      obtain rfl : c = last := beq_iff_eq.mp (after c cell' rfl there)
      have ended : more = [] := by
        rcases List.eq_nil_or_concat more with rfl | ⟨more', d, rfl⟩
        · rfl
        · rw [List.concat_eq_append] at split'
          have split'' : (a :: rest) ++ [c] = ((front ++ [before]) ++ c :: more') ++ [d] := by
            simpa using split'
          have mem : c ∈ a :: rest := by
            rw [(List.append_inj' split'' rfl).1]
            simp
          exact absurd rfl (nodup.2.2 c mem c (List.mem_singleton_self c))
      subst ended
      refine ⟨front, before, (List.append_inj' split' rfl).1, ?_⟩
      rw [walk, found]
      rfl

/-! ## The list after a call -/

theorem setNext_some {heap : Heap} {a : Addr} {e : OS2TimerResolution} (here : heap a = some e)
    (link : Option Addr) :
    setNext heap a link = some (Function.update heap a (some { e with next := link })) := by
  rw [setNext, here]
  rfl

theorem Inv.relist {cells' : List Addr} (inv : Inv s (cells ++ cells') l) {l₁ l₂ : List ℤ}
    (split : l = l₁ ++ l₂) (length : l₂.length = cells'.length)
    (chain : Chain OS2TimerResolution.next s'.heap s'.sTimerResolutions cells)
    (kept : ∀ a ∈ cells, (s'.heap a).map OS2TimerResolution.dwPeriod =
      (s.heap a).map OS2TimerResolution.dwPeriod)
    (allocated : s'.allocated = s.allocated) : Inv s' cells l₁ where
  chain := chain
  periods := by
    have periods := inv.periods
    rw [split, List.map_append, List.map_append] at periods
    rw [← (List.append_inj_left' periods (by simp [length]))]
    exact List.map_congr_left kept
  enough := by
    have enough := inv.enough
    rw [List.length_append] at enough
    rw [allocated]
    omega
  positive p mem := inv.positive p (split ▸ List.mem_append_left l₂ mem)

theorem Inv.destruct {last : Addr} {p : ℤ} (inv : Inv s (cells ++ [last]) (l ++ [p])) :
    ∃ s', s.destruct last = some s' ∧ Inv s' cells l := by
  have chain := inv.chain
  have nodup := List.nodup_append.mp chain.nodup
  have off : ∀ a ∈ cells, a ≠ last := fun a mem =>
    nodup.2.2 a mem last (List.mem_singleton_self last)
  obtain ⟨-, e, here, ended⟩ := chain.drop
  have ended' : e.next = none := ended
  obtain ⟨a, head⟩ : ∃ a, s.sTimerResolutions = some a := by
    rw [chain.head_eq, List.head?_append]
    cases cells <;> exact ⟨_, rfl⟩
  by_cases first : a = last
  · subst first
    have empty : cells = [] := by
      cases cells with
      | nil => rfl
      | cons b cells =>
        obtain rfl : a = b := Option.some.inj (head.symm.trans chain.1)
        exact absurd rfl (off a (List.mem_cons_self ..))
    subst empty
    refine ⟨{ s with sTimerResolutions := e.next, heap := Function.update s.heap a none }, ?_, ?_⟩
    · simp [State.destruct, head, here]
    · exact inv.relist rfl rfl ended' (fun b mem => absurd mem List.not_mem_nil) rfl
  · obtain ⟨front, before, rfl, found⟩ := inv.walk_before head first
    obtain ⟨e', there⟩ := chain.live (a := before) (by simp)
    have apart : before ≠ last := off before (by simp)
    have offBefore : before ∉ front := fun mem =>
      (List.nodup_append.mp nodup.1).2.2 before mem before (List.mem_singleton_self _) rfl
    refine ⟨⟨s.sTimerResolutions, Function.update
      (Function.update s.heap before (some { e' with next := e.next })) last none,
      s.allocated⟩, ?_, ?_⟩
    · simp [State.destruct, head, here, first, found, setNext_some there]
    · refine inv.relist rfl rfl ?_ (fun b mem => ?_) rfl
      · have split : Chain OS2TimerResolution.next s.heap s.sTimerResolutions
            (front ++ before :: [last]) := by simpa using chain
        have linked : Chain OS2TimerResolution.next (Function.update s.heap before
            (some { e' with next := e.next })) s.sTimerResolutions (front ++ [before]) :=
          split.relink offBefore List.not_mem_nil ended
        exact linked.update_of_notMem (fun mem => off last mem rfl) none
      · simp only [Function.update_of_ne (off b mem)]
        by_cases eq : b = before
        · subst eq
          rw [Function.update_self, there]
          rfl
        · rw [Function.update_of_ne eq]

theorem Inv.construct (inv : Inv s cells l) {this : Addr} (fresh : s.heap this = none) {p : ℤ}
    (positive : 0 < p) :
    ∃ s', s.construct this p = some s' ∧ Inv s' (cells ++ [this]) (l ++ [p]) := by
  have chain := inv.chain
  have off : this ∉ cells := by
    intro mem
    obtain ⟨e, here⟩ := chain.live mem
    exact absurd (here.symm.trans fresh) (by simp)
  have grown : ∀ q ∈ l ++ [p], 0 < q := by
    intro q mem
    rcases List.mem_append.mp mem with old | new
    · exact inv.positive q old
    · rwa [List.mem_singleton.mp new]
  have enough := inv.enough
  cases head : s.sTimerResolutions with
  | none =>
    obtain rfl : cells = [] := by
      rw [head] at chain
      exact List.head?_eq_none_iff.mp chain.head_eq.symm
    obtain rfl : l = [] := List.eq_nil_of_length_eq_zero inv.length.symm
    refine ⟨⟨some this, Function.update s.heap this (some ⟨p, none⟩), s.allocated + 1⟩, ?_,
      ⟨⟨rfl, _, Function.update_self .., rfl⟩, ?_, ?_, grown⟩⟩
    · rw [State.construct, head]
      rfl
    · simp
    · simp
  | some a =>
    obtain ⟨front, last, rfl, found⟩ := inv.walk_last head
    obtain ⟨e, here⟩ := chain.live (a := last) (by simp)
    have apart : last ≠ this := by
      rintro rfl
      exact off (by simp)
    let heap' := Function.update (Function.update s.heap this (some ⟨p, none⟩)) last
      (some { e with next := some this })
    have atLast : heap' last = some { e with next := some this } := Function.update_self ..
    have atThis : heap' this = some ⟨p, none⟩ :=
      (Function.update_of_ne apart.symm ..).trans (Function.update_self ..)
    have elsewhere : ∀ b, b ≠ last → b ≠ this → heap' b = s.heap b := fun b ne ne' =>
      (Function.update_of_ne ne ..).trans (Function.update_of_ne ne' ..)
    refine ⟨⟨some a, heap', s.allocated + 1⟩, ?_, ⟨?_, ?_, ?_, grown⟩⟩
    · have here' : Function.update s.heap this (some ⟨p, none⟩) last = some e := by
        rw [Function.update_of_ne apart, here]
      rw [State.construct, head]
      simp only [found, setNext_some here', Option.bind_eq_bind, Option.bind_some]
      rfl
    · rw [← head]
      exact chain.snoc chain.nodup off List.getLast?_concat rfl rfl
    · have old : (front ++ [last]).map (fun b => (heap' b).map OS2TimerResolution.dwPeriod) =
          l.map some := by
        rw [← inv.periods]
        refine List.map_congr_left fun b mem => ?_
        by_cases eq : b = last
        · subst eq
          rw [atLast, here]
          rfl
        · rw [elsewhere b eq fun same => off (same ▸ mem)]
      have new : (heap' this).map OS2TimerResolution.dwPeriod = some p := by
        rw [atThis]
        rfl
      rw [List.map_append, old, List.map_singleton, new, List.map_append]
      rfl
    · rw [List.length_append, List.length_singleton]
      exact Nat.succ_le_succ enough

/-! ## Calls -/

theorem rcOf_inj {ok ok' : Bool} : rcOf ok = rcOf ok' ↔ ok = ok' := by
  cases ok <;> cases ok' <;> decide

theorem Inv.newest {last : Addr} (inv : Inv s (cells ++ [last]) l) :
    ∃ front p e, l = front ++ [p] ∧ s.heap last = some e ∧ e.dwPeriod = p := by
  obtain ⟨e, here⟩ := inv.chain.live (a := last) (by simp)
  rcases List.eq_nil_or_concat l with rfl | ⟨front, p, rfl⟩
  · exact absurd inv.length (by simp)
  · rw [List.concat_eq_append] at inv ⊢
    have periods := inv.periods
    rw [List.map_append, List.map_append, List.map_singleton, List.map_singleton, here] at periods
    have eq := List.singleton_inj.mp (List.append_inj' periods rfl).2
    exact ⟨front, p, e, rfl, here, Option.some.inj eq⟩

theorem leaveResolutionScope_spec (inv : Inv s cells l) (p : ℤ) :
    ∃ s' cells', s.leaveResolutionScope p = some (s', decide (l.getLast? = some p)) ∧
      Inv s' cells' (if l.getLast? = some p then l.dropLast else l) := by
  cases head : s.sTimerResolutions with
  | none =>
    have empty : cells = [] := by
      have chain := inv.chain
      rw [head] at chain
      exact List.head?_eq_none_iff.mp chain.head_eq.symm
    subst empty
    obtain rfl : l = [] := List.eq_nil_of_length_eq_zero inv.length.symm
    refine ⟨s, [], ?_, inv⟩
    rw [State.leaveResolutionScope, head]
    rfl
  | some a =>
    obtain ⟨before, last, rfl, found⟩ := inv.walk_last head
    obtain ⟨front, q, e, rfl, here, period⟩ := inv.newest
    rw [List.getLast?_concat, List.dropLast_concat]
    by_cases eq : q = p
    · subst eq
      obtain ⟨s', gone, inv'⟩ := inv.destruct
      refine ⟨s', before, ?_, by rwa [if_pos rfl]⟩
      rw [State.leaveResolutionScope, head]
      simp [found, here, period, gone]
    · have ne : (some q = some p) = False := by simpa using eq
      refine ⟨s, _, ?_, by rwa [if_neg (by simpa using eq)]⟩
      rw [State.leaveResolutionScope, head]
      simp [found, here, period, eq]

theorem minLoop_eq {heap : Heap} {fuel : ℕ} {a : Addr} {rest : List Addr}
    (chain : Chain OS2TimerResolution.next heap (some a) (a :: rest))
    (positive : ∀ b ∈ a :: rest, ∀ e, heap b = some e → 0 < e.dwPeriod)
    (enough : (a :: rest).length ≤ fuel) : minLoop heap fuel a (-1) = some (-1) := by
  induction rest generalizing a fuel with
  | nil =>
    obtain ⟨fuel, rfl⟩ := Nat.exists_eq_succ_of_ne_zero (Nat.ne_of_gt enough)
    obtain ⟨-, e, here, ended⟩ := chain
    have ended' : e.next = none := ended
    simp [minLoop, here, ended']
  | cons b rest ih =>
    obtain ⟨fuel, rfl⟩ := Nat.exists_eq_succ_of_ne_zero
      (Nat.ne_of_gt (Nat.lt_of_lt_of_le (Nat.succ_pos _) enough))
    obtain ⟨-, e, here, tail⟩ := chain
    have low := positive a (List.mem_cons_self ..) e here
    have link : e.next = some b := tail.1
    rw [link] at tail
    have later := ih tail (fun c mem => positive c (List.mem_cons_of_mem a mem))
      (Nat.le_of_succ_le_succ enough)
    simpa [minLoop, here, link, show ¬ e.dwPeriod < -1 by omega] using later

theorem Inv.entry_pos (inv : Inv s cells l) {a : Addr} (mem : a ∈ cells) {e : OS2TimerResolution}
    (here : s.heap a = some e) : 0 < e.dwPeriod := by
  have listed := List.mem_map_of_mem (f := fun a => (s.heap a).map OS2TimerResolution.dwPeriod) mem
  rw [inv.periods, here, Option.map_some] at listed
  obtain ⟨p, there, eq⟩ := List.mem_map.mp listed
  rw [← Option.some.inj eq]
  exact inv.positive p there

theorem queryCurrentResolution_eq (inv : Inv s cells l) :
    s.queryCurrentResolution = some (-1) := by
  have chain := inv.chain
  cases cells with
  | nil =>
    have empty : s.sTimerResolutions = none := chain
    rw [State.queryCurrentResolution, empty]
  | cons a rest =>
    have head : s.sTimerResolutions = some a := chain.1
    rw [head] at chain
    rw [State.queryCurrentResolution, head]
    exact minLoop_eq chain (fun b mem e here => inv.entry_pos mem here) inv.enough

/-- What the calls answer. -/
def answered (l : List ℤ) : Op → Answer
  | .timeBeginPeriod c mem => .result (rcOf (accepted c && mem.isSome))
  | .timeEndPeriod c => .result (rcOf (accepted c && decide (l.getLast? = some (intOf c))))
  | .queryCurrentResolution => .period (-1)

theorem step_spec (inv : Inv s cells l) (offered : Offered s op) :
    ∃ s' cells', step s op = some (s', answered l op) ∧ Inv s' cells' (stacked l op) := by
  cases op with
  | timeBeginPeriod c mem =>
    cases ok : accepted c with
    | false =>
      refine ⟨s, cells, ?_, by simpa [stacked, ok] using inv⟩
      simp [step, State.timeBeginPeriod, answered, ok, rcOf]
    | true =>
      cases mem with
      | none =>
        refine ⟨s, cells, ?_, by simpa [stacked] using inv⟩
        simp [step, State.timeBeginPeriod, State.enterResolutionScope, answered, ok, rcOf]
      | some a =>
        obtain ⟨s', made, inv'⟩ := inv.construct (offered a rfl) (intOf_pos ok)
        refine ⟨s', _, ?_, by simpa [stacked, ok] using inv'⟩
        simp [step, State.timeBeginPeriod, State.enterResolutionScope, answered, ok, made, rcOf]
  | timeEndPeriod c =>
    cases ok : accepted c with
    | false =>
      refine ⟨s, cells, ?_, by simpa [stacked, ok] using inv⟩
      simp [step, State.timeEndPeriod, answered, ok, rcOf]
    | true =>
      obtain ⟨s', cells', left, inv'⟩ := leaveResolutionScope_spec inv (intOf c)
      refine ⟨s', cells', ?_, by simpa [stacked, ok] using inv'⟩
      simp [step, State.timeEndPeriod, answered, ok, left, rcOf]
  | queryCurrentResolution =>
    refine ⟨s, cells, ?_, inv⟩
    simp [step, queryCurrentResolution_eq inv, answered]

theorem Inv.lists (inv : Inv s cells l) : Lists s l := ⟨cells, inv.chain, inv.periods⟩

theorem right_iff (positive : ∀ p ∈ l, 0 < p) :
    Right (l : Multiset ℤ) op (answered l op) ↔ StepFits l op := by
  cases op with
  | timeBeginPeriod c mem => exact iff_of_true rfl trivial
  | timeEndPeriod c =>
    simp only [Right, answered, StepFits, Answer.result.injEq, rcOf_inj, Multiset.mem_coe]
    cases accepted c with
    | false => simp
    | true =>
      simp only [Bool.true_and, decide_eq_decide, forall_const]
      exact ⟨Iff.mpr, fun fits => ⟨List.mem_of_getLast?, fits⟩⟩
  | queryCurrentResolution =>
    constructor
    · intro right
      by_contra some
      obtain ⟨p, eq, mem, -⟩ := right (fun empty => some ((Multiset.coe_eq_zero l).mp empty))
      cases eq
      exact absurd (positive (-1) (Multiset.mem_coe.mp mem)) (by decide)
    · rintro rfl some
      exact absurd rfl some

theorem stacked_eq (fits : StepFits l op) : (stacked l op : Multiset ℤ) = outstanding l op := by
  cases op with
  | timeBeginPeriod c mem =>
    simp only [stacked, outstanding]
    by_cases made : (accepted c && mem.isSome) = true
    · rw [if_pos made, if_pos made, ← Multiset.coe_add, Multiset.coe_singleton,
        Multiset.add_comm, Multiset.singleton_add]
    · rw [if_neg made, if_neg made]
  | timeEndPeriod c =>
    simp only [stacked, outstanding]
    cases ok : accepted c with
    | false => simp
    | true =>
      by_cases mem : intOf c ∈ l
      · have last := fits ok mem
        obtain ⟨front, rfl⟩ : ∃ front, l = front ++ [intOf c] :=
          List.getLast?_eq_some_iff.mp last
        rw [if_pos (by simp), if_pos rfl, List.dropLast_concat, ← Multiset.coe_add,
          Multiset.coe_singleton, Multiset.add_comm, Multiset.singleton_add,
          Multiset.erase_cons_head]
      · have no : l.getLast? ≠ some (intOf c) := fun last => mem (List.mem_of_getLast? last)
        rw [if_neg (by simpa using no), if_pos rfl,
          Multiset.erase_of_notMem (by simpa using mem)]
  | queryCurrentResolution => rfl

/-! ## Runs -/

theorem runPromised_iff_from (ops : List Op) (inv : Inv s cells l) (offered : RunOffered s ops) :
    RunPromised s (l : Multiset ℤ) ops ↔ RunFits l ops := by
  induction ops generalizing s cells l with
  | nil => exact Iff.rfl
  | cons op ops ih =>
    obtain ⟨s', cells', stepped, inv'⟩ := step_spec inv offered.1
    have rest := ih inv' (offered.2 s' _ stepped)
    constructor
    · rintro ⟨t, answer, l', stepped', right, -, -, later⟩
      obtain ⟨rfl, rfl⟩ := Prod.mk.inj (Option.some.inj (stepped.symm.trans stepped'))
      have fits := (right_iff inv.positive).mp right
      rw [← stacked_eq fits] at later
      exact ⟨fits, rest.mp later⟩
    · rintro ⟨fits, later⟩
      refine ⟨s', answered l op, stacked l op, stepped, (right_iff inv.positive).mpr fits,
        inv'.lists, stacked_eq fits, ?_⟩
      rw [← stacked_eq fits]
      exact rest.mpr later

/-- The requests form a multiset exactly over the runs that use them as a stack. -/
theorem timerResolution_promised_iff (ops : List Op) (offered : RunOffered State.init ops) :
    RunPromised State.init 0 ops ↔ RunFits [] ops :=
  runPromised_iff_from ops inv_init offered

/-- Two requests of which the later one ends first. -/
def nested : List Op :=
  [.timeBeginPeriod 5 (some 0), .timeBeginPeriod 3 (some 1), .timeEndPeriod 3, .timeEndPeriod 7,
    .timeEndPeriod 5, .queryCurrentResolution]

theorem nested_offered : RunOffered State.init nested := by
  refine ⟨fun a _ => rfl, ?_⟩
  rintro _ _ ⟨⟩
  refine ⟨fun a eq => ?_, ?_⟩
  · cases eq
    rfl
  · rintro _ _ ⟨⟩
    refine ⟨trivial, ?_⟩
    rintro _ _ ⟨⟩
    refine ⟨trivial, ?_⟩
    rintro _ _ ⟨⟩
    refine ⟨trivial, ?_⟩
    rintro _ _ ⟨⟩
    exact ⟨trivial, fun _ _ _ => trivial⟩

theorem timerResolution_promised_nested : RunPromised State.init 0 nested :=
  (timerResolution_promised_iff nested nested_offered).mpr
    ⟨trivial, trivial, fun _ _ => rfl, fun _ mem => absurd mem (by decide), fun _ _ => rfl, rfl,
      trivial⟩

/-- The earlier one of two requests ends first. -/
def crossed : List Op :=
  [.timeBeginPeriod 5 (some 0), .timeBeginPeriod 3 (some 1), .timeEndPeriod 5]

/-- The request for 5 ms cannot end while the one for 3 ms is there. -/
theorem crossed_not_promised :
    ¬ ∀ ops, RunOffered State.init ops → RunPromised State.init 0 ops := by
  intro all
  have offered : RunOffered State.init crossed := by
    refine ⟨fun a _ => rfl, ?_⟩
    rintro _ _ ⟨⟩
    refine ⟨fun a eq => ?_, ?_⟩
    · cases eq
      rfl
    · rintro _ _ ⟨⟩
      exact ⟨trivial, fun _ _ _ => trivial⟩
  have fits := (runPromised_iff_from crossed inv_init offered).mp (all crossed offered)
  have last := fits.2.2.1 rfl (by decide)
  exact absurd last (by decide)

end Odin32.TimerResolution
