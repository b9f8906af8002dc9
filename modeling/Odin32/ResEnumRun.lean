import Odin32.ResEnum
import Odin32.ResFind

/-! # What the enumeration calls

Which entries the callback gets from the loops, what it is passed for them, and when the six
functions enumerate their directory completely. -/

set_option autoImplicit false

namespace Odin32.ResTree

/-! ## Answers -/

/-- The number of calls for so many entries from `i` on: up to the first that answers FALSE. -/
def callCount (answers : ℕ → ℤ) : ℕ → ℕ → ℕ
  | 0, _ => 0
  | m + 1, i => if answers i = 0 then 1 else callCount answers m (i + 1) + 1

/-- No call of so many from `i` on answers FALSE. -/
def AllTrue (answers : ℕ → ℤ) (m i : ℕ) : Prop := ∀ j < m, answers (i + j) ≠ 0

/-- The flag after the calls. -/
def lastAnswer (answers : ℕ → ℤ) : ℕ → ℕ → ℤ → ℤ
  | 0, _, fRet => fRet
  | m + 1, i, _ => if answers i = 0 then 0 else lastAnswer answers m (i + 1) (answers i)

section Answers
variable {answers : ℕ → ℤ}

theorem allTrue_succ {m i : ℕ} :
    AllTrue answers (m + 1) i ↔ answers i ≠ 0 ∧ AllTrue answers m (i + 1) := by
  constructor
  · intro all
    refine ⟨all 0 (Nat.succ_pos m), fun j inside => ?_⟩
    have := all (j + 1) (Nat.succ_lt_succ inside)
    rwa [Nat.add_comm j 1, ← Nat.add_assoc] at this
  · rintro ⟨here, later⟩ j inside
    cases j with
    | zero => exact here
    | succ j =>
      have := later j (Nat.lt_of_succ_lt_succ inside)
      rwa [Nat.add_assoc, Nat.add_comm 1 j] at this

theorem callCount_pos (m i : ℕ) : 0 < callCount answers (m + 1) i := by
  rw [callCount]
  split_ifs
  · exact Nat.one_pos
  · exact Nat.succ_pos _

theorem allTrue_callCount (m i : ℕ) :
    AllTrue answers (callCount answers m i) i ↔ AllTrue answers m i := by
  induction m generalizing i with
  | zero => exact Iff.rfl
  | succ m ih =>
    rw [callCount]
    by_cases false' : answers i = 0
    · rw [if_pos false', allTrue_succ, allTrue_succ]
      exact iff_of_false (fun both => both.1 false') fun both => both.1 false'
    · rw [if_neg false', allTrue_succ, allTrue_succ, ih]

theorem lastAnswer_false {m i : ℕ} {fRet : ℤ} (notAll : ¬ AllTrue answers m i) :
    lastAnswer answers m i fRet = 0 := by
  induction m generalizing i fRet with
  | zero => exact absurd (fun j inside => absurd inside (Nat.not_lt_zero j)) notAll
  | succ m ih =>
    rw [lastAnswer]
    by_cases false' : answers i = 0
    · rw [if_pos false']
    · rw [if_neg false']
      exact ih fun later => notAll (allTrue_succ.mpr ⟨false', later⟩)

theorem lastAnswer_true {m i : ℕ} {fRet : ℤ} (all : AllTrue answers m i) :
    lastAnswer answers m i fRet = if m = 0 then fRet else answers (i + m - 1) := by
  induction m generalizing i fRet with
  | zero => rfl
  | succ m ih =>
    obtain ⟨here, later⟩ := allTrue_succ.mp all
    rw [lastAnswer, if_neg here, ih later, if_neg (Nat.succ_ne_zero m)]
    split_ifs with none
    · rw [none]
      rfl
    · exact congrArg answers (by omega)

end Answers

/-! ## The loop -/

/-- The prepared calls are the wanted ones. -/
def Prepares (prepare : ℕ → ℕ → Entry → Prepared) (wanted : Entry → Call → Prop) :
    List Entry → ℕ → ℕ → Prop
  | [], _, _ => True
  | e :: rest, i, cch => ∃ c cch', prepare i cch e = .call c cch' ∧ wanted e c ∧
      Prepares prepare wanted rest (i + 1) cch'

/-- The entries for which there is a call. -/
def called (answers : ℕ → ℤ) (es : List Entry) : List Entry :=
  es.take (callCount answers es.length 0)

/-- One wanted call for each entry, in their order, up to the first that answers FALSE; and TRUE
at the end if and only if none does. -/
structure Complete (wanted : Entry → Call → Prop) (es : List Entry) (answers : ℕ → ℤ)
    (run : Run) : Prop where
  calls : List.Forall₂ wanted (called answers es) run.calls
  result : ∃ fRet, run.fRet = some fRet ∧
    (fRet ≠ 0 ↔ ∀ i < callCount answers es.length 0, answers i ≠ 0)

/-- If all answers are TRUE, the last value of the flag is positive. -/
def EndsPositive (answers : ℕ → ℤ) (m : ℕ) (fRet : ℤ) : Prop :=
  AllTrue answers m 0 → 0 < if m = 0 then fRet else answers (m - 1)

section Loop
variable {prepare : ℕ → ℕ → Entry → Prepared} {wanted : Entry → Call → Prop} {answers : ℕ → ℤ}

theorem enumLoop_stop (es : List Entry) (i cch : ℕ) :
    enumLoop prepare answers es i cch 0 = ⟨[], some 0⟩ := by
  cases es with
  | nil => rfl
  | cons e rest => exact if_pos rfl

theorem loop_prepares {es : List Entry} {i cch : ℕ} {fRet : ℤ} (go : fRet ≠ 0)
    (prepares : Prepares prepare wanted (es.take (callCount answers es.length i)) i cch) :
    List.Forall₂ wanted (es.take (callCount answers es.length i))
        (enumLoop prepare answers es i cch fRet).calls ∧
      (enumLoop prepare answers es i cch fRet).fRet =
        some (lastAnswer answers es.length i fRet) := by
  induction es generalizing i cch fRet with
  | nil => exact ⟨List.Forall₂.nil, rfl⟩
  | cons e rest ih =>
    rw [List.length_cons, callCount] at prepares ⊢
    by_cases false' : answers i = 0
    · rw [if_pos false', List.take_succ_cons, List.take_zero] at prepares ⊢
      obtain ⟨c, cch', made, right, -⟩ := prepares
      rw [enumLoop, if_neg go, made]
      dsimp only
      rw [false', enumLoop_stop, lastAnswer, if_pos false']
      exact ⟨List.Forall₂.cons right List.Forall₂.nil, rfl⟩
    · rw [if_neg false', List.take_succ_cons] at prepares ⊢
      obtain ⟨c, cch', made, right, prepares⟩ := prepares
      obtain ⟨calls, result⟩ := ih false' prepares
      rw [enumLoop, if_neg go, made]
      dsimp only
      rw [lastAnswer, if_neg false']
      exact ⟨List.Forall₂.cons right calls, result⟩

theorem loop_prepares_conv {es : List Entry} {i cch : ℕ} {fRet : ℤ} (go : fRet ≠ 0)
    (calls : List.Forall₂ wanted (es.take (callCount answers es.length i))
      (enumLoop prepare answers es i cch fRet).calls)
    (ends : (enumLoop prepare answers es i cch fRet).fRet ≠ none) :
    Prepares prepare wanted (es.take (callCount answers es.length i)) i cch := by
  induction es generalizing i cch fRet with
  | nil => trivial
  | cons e rest ih =>
    have one : 0 < callCount answers (rest.length + 1) i := callCount_pos _ _
    obtain ⟨m, count⟩ := Nat.exists_eq_succ_of_ne_zero one.ne'
    rw [enumLoop, if_neg go] at calls ends
    rw [List.length_cons] at calls ⊢
    rw [count, List.take_succ_cons] at calls ⊢
    cases made : prepare i cch e with
    | trap =>
      rw [made] at ends
      exact absurd rfl ends
    | refused =>
      rw [made] at calls
      cases calls
    | call c cch' =>
      rw [made] at calls ends
      dsimp only at calls ends
      obtain ⟨right, calls⟩ := List.forall₂_cons.mp calls
      refine ⟨c, cch', made, right, ?_⟩
      rw [callCount] at count
      split_ifs at count with false'
      · obtain rfl := Nat.succ.inj count
        trivial
      · obtain rfl := Nat.succ.inj count
        exact ih false' calls ends

theorem noFalse_iff (m : ℕ) :
    (∀ i < callCount answers m 0, answers i ≠ 0) ↔ AllTrue answers m 0 := by
  rw [← allTrue_callCount]
  simp only [AllTrue, Nat.zero_add]

theorem closed_ne_zero (last : ℤ) : (if 0 < last then (1 : ℤ) else 0) ≠ 0 ↔ 0 < last := by
  split_ifs with positive
  · exact iff_of_true Int.one_ne_zero positive
  · exact iff_of_false (fun h => h rfl) positive

theorem closed_result {run : Run} {last : ℤ} (ends : run.fRet = some last) (m : ℕ) :
    (∃ r, run.close.fRet = some r ∧ (r ≠ 0 ↔ ∀ i < callCount answers m 0, answers i ≠ 0)) ↔
      (0 < last ↔ AllTrue answers m 0) := by
  rw [Run.close, ends, noFalse_iff, ← closed_ne_zero last]
  simp only [Option.map_some, Option.some_inj, exists_eq_left']

theorem positive_iff (m : ℕ) (fRet : ℤ) :
    (0 < lastAnswer answers m 0 fRet ↔ AllTrue answers m 0) ↔
      EndsPositive answers m fRet := by
  by_cases all : AllTrue answers m 0
  · rw [lastAnswer_true all, Nat.zero_add, EndsPositive]
    exact ⟨fun both _ => both.mpr all, fun positive => ⟨fun _ => all, positive⟩⟩
  · rw [lastAnswer_false all]
    exact iff_of_true (iff_of_false (Int.lt_irrefl 0) all) fun h => absurd h all

/-- Complete are the runs whose calls are prepared right and whose last answer is positive when
all are TRUE. -/
theorem complete_close_iff {es : List Entry} {fRet : ℤ} :
    Complete wanted es answers (enumLoop prepare answers es 0 0 fRet).close ↔
      (es ≠ [] → fRet ≠ 0) ∧ Prepares prepare wanted (called answers es) 0 0 ∧
        EndsPositive answers es.length fRet := by
  by_cases empty : es = []
  · subst empty
    have ended : (enumLoop prepare answers [] 0 0 fRet).fRet = some fRet := rfl
    have result := @closed_result answers _ _ ended 0
    constructor
    · rintro ⟨-, ends⟩
      exact ⟨fun h => absurd rfl h, trivial,
        (positive_iff 0 fRet).mp (result.mp ends)⟩
    · rintro ⟨-, -, positive⟩
      exact ⟨List.Forall₂.nil, result.mpr ((positive_iff 0 fRet).mpr positive)⟩
  · by_cases stopped : fRet = 0
    · subst stopped
      refine iff_of_false ?_ fun both => both.1 empty rfl
      rintro ⟨calls, -⟩
      obtain ⟨e, rest, rfl⟩ := List.exists_cons_of_ne_nil empty
      have one : 0 < callCount answers (rest.length + 1) 0 := callCount_pos _ _
      obtain ⟨m, count⟩ := Nat.exists_eq_succ_of_ne_zero one.ne'
      rw [called, enumLoop_stop, List.length_cons, count] at calls
      cases calls
    · constructor
      · rintro ⟨calls, ends⟩
        have prepares := loop_prepares_conv stopped calls fun trapped => by
          obtain ⟨r, result, -⟩ := ends
          rw [Run.close, trapped] at result
          cases result
        have last := (loop_prepares stopped prepares).2
        exact ⟨fun _ => stopped, prepares,
          (positive_iff es.length fRet).mp ((closed_result last es.length).mp ends)⟩
      · rintro ⟨-, prepares, positive⟩
        obtain ⟨calls, last⟩ := loop_prepares stopped prepares
        exact ⟨calls,
          (closed_result last es.length).mpr ((positive_iff es.length fRet).mpr positive)⟩

theorem prepares_iff {next : ℕ → Entry → ℕ} {ok : ℕ → ℕ → Entry → Prop}
    (keeps : ∀ i cch e c cch', prepare i cch e = .call c cch' → cch' = next cch e)
    (es : List Entry)
    (right : ∀ e ∈ es, ∀ i cch,
      (∃ c cch', prepare i cch e = .call c cch' ∧ wanted e c) ↔ ok i cch e) (i cch : ℕ) :
    Prepares prepare wanted es i cch ↔
      ∀ j e, es[j]? = some e → ok (i + j) ((es.take j).foldl next cch) e := by
  induction es generalizing i cch with
  | nil =>
    refine iff_of_true trivial fun j e there => ?_
    cases there
  | cons e rest ih =>
    have here := right e (List.mem_cons_self ..) i cch
    have ih := ih fun f inside => right f (List.mem_cons_of_mem _ inside)
    constructor
    · rintro ⟨c, cch', made, good, later⟩ j f there
      obtain rfl := keeps _ _ _ _ _ made
      cases j with
      | zero =>
        cases there
        exact here.mp ⟨c, _, made, good⟩
      | succ j =>
        have := (ih _ _).mp later j f there
        rwa [Nat.add_assoc, Nat.add_comm 1 j] at this
    · intro all
      obtain ⟨c, cch', made, good⟩ := here.mpr (all 0 e rfl)
      obtain rfl := keeps _ _ _ _ _ made
      refine ⟨c, _, made, good, (ih _ _).mpr fun j f there => ?_⟩
      have := all (j + 1) f there
      rwa [← Nat.add_assoc, Nat.add_right_comm] at this

end Loop

/-! ## Conversion -/

section Conversion
variable {cp : CodePage}

theorem ansiBytes_cases (cp : CodePage) (ch : ℕ) :
    (cp.uni2cp ch < 0x100 ∧ ansiBytes (cp.uni2cp ch) = [cp.uni2cp ch]) ∨
    (0x100 ≤ cp.uni2cp ch ∧
      ansiBytes (cp.uni2cp ch) = [cp.uni2cp ch / 0x100, cp.uni2cp ch % 0x100]) := by
  rcases Nat.lt_or_ge (cp.uni2cp ch) 0x100 with one | two
  · exact .inl ⟨one, if_neg (by omega)⟩
  · exact .inr ⟨two, if_pos two⟩

theorem convert_cons (ch : ℕ) (s : List ℕ) :
    cp.convert (ch :: s) = ansiBytes (cp.uni2cp ch) ++ cp.convert s := by
  rw [CodePage.convert, List.flatMap_cons]
  rfl

theorem convert_nonzero {s : List ℕ} (chars : 0 ∉ s) : ∀ b ∈ cp.convert s, b ≠ 0 := by
  intro b inside
  obtain ⟨ch, here, inside⟩ := List.mem_flatMap.mp inside
  have nonzero := cp.nonzero ch (fun zero => chars (zero ▸ here))
  rcases ansiBytes_cases cp ch with ⟨one, bytes⟩ | ⟨two, bytes⟩
  · rw [bytes, List.mem_singleton] at inside
    omega
  · rw [bytes, List.mem_cons, List.mem_singleton] at inside
    omega

theorem lstrlenWtoA_eq (cp : CodePage) (s : List ℕ) :
    lstrlenWtoA cp s = (cp.convert s).length := by
  rw [lstrlenWtoA]
  split_ifs with dbcs
  · rfl
  · induction s with
    | nil => rfl
    | cons ch s ih =>
      rcases ansiBytes_cases cp ch with ⟨one, bytes⟩ | ⟨two, bytes⟩
      · rw [convert_cons, bytes, List.length_append, List.length_singleton, ← ih,
          List.length_cons, Nat.add_comm]
      · have := cp.single (Bool.eq_false_iff.mpr dbcs) ch
        omega

theorem wcstombs_single {src : ℕ → ℕ} {i : ℕ} (nonzero : src i ≠ 0)
    (one : cp.uni2cp (src i) < 0x100) (len : ℕ) :
    wcstombs cp src (len + 1) i = cp.uni2cp (src i) :: wcstombs cp src len (i + 1) := by
  have notTwo : ¬ 0x100 ≤ cp.uni2cp (src i) := Nat.not_le.mpr one
  cases len with
  | zero =>
    unfold wcstombs
    rw [if_neg nonzero, if_neg notTwo]
  | succ len => rw [wcstombs, if_neg nonzero, if_neg notTwo]

theorem wcstombs_double {src : ℕ → ℕ} {i : ℕ} (nonzero : src i ≠ 0)
    (two : 0x100 ≤ cp.uni2cp (src i)) (len : ℕ) :
    wcstombs cp src (len + 2) i = cp.uni2cp (src i) / 0x100 :: cp.uni2cp (src i) % 0x100 ::
      wcstombs cp src len (i + 1) := by
  rw [wcstombs, if_neg nonzero, if_pos two]

theorem wcstombs_chars {src : ℕ → ℕ} {s : List ℕ} (chars : 0 ∉ s) (i room : ℕ)
    (source : ∀ j < s.length, src (i + j) = s.getD j 0) :
    wcstombs cp src ((cp.convert s).length + room) i =
      cp.convert s ++ wcstombs cp src room (i + s.length) := by
  induction s generalizing i with
  | nil =>
    rw [CodePage.convert, List.flatMap_nil, List.length_nil, Nat.zero_add, List.nil_append,
      Nat.add_zero]
  | cons ch s ih =>
    have here : src i = ch := source 0 (Nat.succ_pos _)
    have nonzero : src i ≠ 0 := by
      rw [here]
      exact fun zero => chars (zero ▸ List.mem_cons_self ..)
    have rest := ih (fun inside => chars (List.mem_cons_of_mem _ inside)) (i + 1) fun j inside => by
      have := source (j + 1) (Nat.succ_lt_succ inside)
      rwa [Nat.add_comm j 1, ← Nat.add_assoc, Nat.add_comm 1 j] at this
    rw [Nat.add_assoc, Nat.add_comm 1] at rest
    rcases ansiBytes_cases cp ch with ⟨one, bytes⟩ | ⟨two, bytes⟩
    · rw [convert_cons, bytes, List.singleton_append, List.length_cons, List.cons_append,
        List.length_cons, ← rest, Nat.add_right_comm]
      rw [← here] at one ⊢
      exact wcstombs_single nonzero one _
    · rw [convert_cons, bytes, List.cons_append, List.singleton_append, List.length_cons,
        List.length_cons, List.cons_append, List.cons_append, List.length_cons, ← rest,
        Nat.add_right_comm _ 1, Nat.add_right_comm _ 1]
      rw [← here] at two ⊢
      exact wcstombs_double nonzero two _

theorem broken_convert (cp : CodePage) (s : List ℕ) :
    broken cp.isDBCSLeadByte (cp.convert s) = false := by
  induction s with
  | nil => rfl
  | cons ch s ih =>
    rcases ansiBytes_cases cp ch with ⟨one, bytes⟩ | ⟨two, bytes⟩
    · have notLead := cp.notLead ch one
      rw [convert_cons, bytes, List.singleton_append]
      cases rest : cp.convert s with
      | nil => exact notLead
      | cons b rest' =>
        rw [broken, notLead, if_neg Bool.false_ne_true, ← rest, ih]
    · rw [convert_cons, bytes, List.cons_append, List.singleton_append, broken, cp.lead ch two,
        if_pos rfl, ih]

theorem lstrtrunc_convert (cp : CodePage) (s : List ℕ) :
    lstrtrunc cp (cp.convert s) = cp.convert s := by
  rw [lstrtrunc, broken_convert, Bool.and_false, if_neg Bool.false_ne_true]

theorem lstrcpynWtoA_chars (cp : CodePage) {src : ℕ → ℕ} {s : List ℕ} (chars : 0 ∉ s)
    (source : ∀ j < s.length, src j = s.getD j 0) :
    lstrcpynWtoA cp src ((cp.convert s).length + 1) = cp.convert s := by
  have fromZero : ∀ j < s.length, src (0 + j) = s.getD j 0 := by
    intro j inside
    rw [Nat.zero_add]
    exact source j inside
  have out : wcstombs cp src ((cp.convert s).length + 1) 0 =
      cp.convert s ++ wcstombs cp src 1 (0 + s.length) := wcstombs_chars chars 0 1 fromZero
  have kept : (cp.convert s).takeWhile (fun ch => ch ≠ 0) = cp.convert s :=
    List.takeWhile_eq_self_iff.mpr fun b inside => decide_eq_true (convert_nonzero chars b inside)
  rw [lstrcpynWtoA, out]
  rw [Nat.add_sub_cancel, List.take_left' rfl, kept, lstrtrunc_convert, ite_self]

/-- The string at `text` is `s`. -/
def IsString (text : ℕ → ℕ) (s : List ℕ) : Prop := ∀ i ≤ s.length, text i = s.getD i 0

theorem textOf_isString (s : List ℕ) : IsString (textOf s) s := fun _ _ => rfl

theorem text_getD (str : NameString) {j : ℕ} (inside : j < str.chars.length) :
    str.text j = str.chars.getD j 0 := by
  rw [NameString.text, List.getD_eq_getElem?_getD, List.getElem?_eq_getElem inside,
    Option.getD_some, Option.getD_some]

theorem ansiName_isString (cp : CodePage) {str : NameString} (chars : 0 ∉ str.chars) :
    IsString (ansiName cp str) (cp.convert str.chars) := by
  have source : ∀ j < str.chars.length, str.text j = str.chars.getD j 0 :=
    fun j inside => text_getD str inside
  rw [ansiName, lstrlenWtoA_eq, lstrcpynWtoA_chars cp chars source, List.take_length]
  exact textOf_isString _

theorem text_isString_iff (str : NameString) :
    IsString str.text str.chars ↔ str.behind 0 = 0 := by
  have last : str.text str.chars.length = str.behind 0 := by
    rw [NameString.text, List.getElem?_eq_none le_rfl, Option.getD_none, Nat.sub_self]
  have none : str.chars.getD str.chars.length 0 = 0 := by
    rw [List.getD_eq_getElem?_getD, List.getElem?_eq_none le_rfl, Option.getD_none]
  constructor
  · intro string
    rw [← last, string _ le_rfl, none]
  · intro zero i inside
    rcases Nat.lt_or_eq_of_le inside with lt | rfl
    · exact text_getD str lt
    · rw [last, zero, none]

end Conversion

/-! ## The six functions -/

/-- An id as itself, a name as a string of its characters in a buffer that it fits. -/
def wantedA (cp : CodePage) : Entry → Call → Prop
  | .id n, c => c.passed = .id n
  | .named str, c =>
    (∃ text, c.passed = .str text ∧ IsString text (cp.convert str.chars)) ∧ c.written ≤ c.room

def wantedW : Entry → Call → Prop
  | .id n, c => c.passed = .id n
  | .named str, c =>
    (∃ text, c.passed = .str text ∧ IsString text str.chars) ∧ c.written ≤ c.room

/-- There is memory for the copies of the names. -/
def Memory (mallocs : ℕ → Bool) (es : List Entry) : Prop :=
  ∀ i str, es[i]? = some (.named str) → mallocs i = true

/-- In the image, a 0 follows each name. -/
def Terminated (es : List Entry) : Prop :=
  ∀ (i : ℕ) str, es[i]? = some (.named str) → str.behind 0 = 0

/-- The buffer for a name by its characters. -/
def Entry.need : Entry → ℕ
  | .id _ => 0
  | .named str => max (str.chars.length + 1) 32

/-- The buffer after some entries: the greatest that one of them needs. -/
def buffer (es : List Entry) : ℕ := es.foldl (fun cch e => max cch e.need) 0

/-- The converted names and their 0 fit the buffer, and there is memory when it grows. -/
def Roomy (cp : CodePage) (mallocs : ℕ → Bool) (es : List Entry) : Prop :=
  ∀ i str, es[i]? = some (.named str) →
    (buffer (es.take i) ≤ str.chars.length → mallocs i = true) ∧
    (cp.convert str.chars).length + 1 ≤ buffer (es.take (i + 1))

/-- Names hold no 0. -/
def Words (es : List Entry) : Prop := ∀ str, .named str ∈ es → 0 ∉ str.chars

theorem Words.called {es : List Entry} (words : Words es) (answers : ℕ → ℤ) :
    Words (called answers es) :=
  fun str inside => words str (List.mem_of_mem_take inside)

theorem Directory.Ordered.words_entries {α : Type} {loc : Locale} {dir : Directory α}
    (ordered : dir.Ordered loc) : Words dir.entries := by
  intro str inside
  rcases List.mem_append.mp inside with named | id
  · obtain ⟨e, here, same⟩ := List.mem_map.mp named
    cases same
    exact ordered.chars e here
  · obtain ⟨e, -, same⟩ := List.mem_map.mp id
    cases same

section Prepare
variable {cp : CodePage} {mallocs : ℕ → Bool} {es : List Entry}

theorem prepareCopy_iff {text : NameString → ℕ → ℕ} {size : NameString → ℕ}
    {wanted : Entry → Call → Prop} {right : NameString → Prop}
    (ids : ∀ n, wanted (.id n) ⟨.id n, 0, 0⟩)
    (names : ∀ str, .named str ∈ es →
      (wanted (.named str) ⟨.str (text str), size str, size str⟩ ↔ right str)) :
    Prepares (prepareCopy mallocs text size) wanted es 0 0 ↔
      Memory mallocs es ∧ ∀ (i : ℕ) str, es[i]? = some (.named str) → right str := by
  have keeps : ∀ i cch e c cch',
      prepareCopy mallocs text size i cch e = .call c cch' → cch' = cch := by
    intro i cch e c cch' made
    cases e with
    | id n =>
      cases made
      rfl
    | named str =>
      rw [prepareCopy] at made
      split_ifs at made
      cases made
      rfl
  have step : ∀ e ∈ es, ∀ i cch : ℕ,
      (∃ c cch', prepareCopy mallocs text size i cch e = .call c cch' ∧ wanted e c) ↔
        ∀ str, e = .named str → mallocs i = true ∧ right str := by
    intro e inside i cch
    cases e with
    | id n =>
      refine iff_of_true ⟨_, _, rfl, ids n⟩ fun str same => ?_
      cases same
    | named str =>
      rw [prepareCopy]
      constructor
      · rintro ⟨c, cch', made, good⟩ other same
        cases same
        split_ifs at made with memory
        cases made
        exact ⟨memory, (names str inside).mp good⟩
      · intro ok
        obtain ⟨memory, good⟩ := ok str rfl
        rw [if_pos memory]
        exact ⟨_, _, rfl, (names str inside).mpr good⟩
  rw [prepares_iff keeps es step]
  constructor
  · intro all
    refine ⟨fun i str there => ?_, fun i str there => (all i _ there str rfl).2⟩
    have := (all i _ there str rfl).1
    rwa [Nat.zero_add] at this
  · rintro ⟨memory, good⟩ i e there str rfl
    rw [Nat.zero_add]
    exact ⟨memory i str there, good i str there⟩

theorem prepareTypeA_iff (words : Words es) :
    Prepares (prepareTypeA cp mallocs) (wantedA cp) es 0 0 ↔ Memory mallocs es := by
  rw [prepareTypeA, prepareCopy_iff (fun _ => rfl) fun str inside => iff_true_intro
    ⟨⟨_, rfl, ansiName_isString cp (words str inside)⟩, le_rfl⟩]
  exact and_iff_left fun _ _ _ => trivial

theorem prepareTypeW_iff :
    Prepares (prepareTypeW mallocs) wantedW es 0 0 ↔ Memory mallocs es ∧ Terminated es := by
  refine prepareCopy_iff (fun _ => rfl) fun str _ => ?_
  rw [← text_isString_iff]
  constructor
  · rintro ⟨⟨text, same, string⟩, -⟩
    cases same
    exact string
  · intro string
    exact ⟨⟨_, rfl, string⟩, le_rfl⟩

theorem prepareNameW_iff :
    Prepares (prepareNameW mallocs) wantedW es 0 0 ↔ Memory mallocs es := by
  rw [prepareNameW, prepareCopy_iff (fun _ => rfl) fun str _ => iff_true_intro
    ⟨⟨_, rfl, textOf_isString str.chars⟩, le_rfl⟩]
  exact and_iff_left fun _ _ _ => trivial

/-- The buffer of `enumResourceNamesA` after an entry. -/
def grown (cch : ℕ) : Entry → ℕ
  | .id _ => cch
  | .named str => if cch ≤ str.chars.length then max (str.chars.length + 1) 32 else cch

theorem grown_eq {cch : ℕ} (made : cch = 0 ∨ 32 ≤ cch) (e : Entry) :
    grown cch e = max cch e.need ∧ (max cch e.need = 0 ∨ 32 ≤ max cch e.need) := by
  cases e with
  | id n =>
    rw [grown, Entry.need, Nat.max_zero]
    exact ⟨rfl, made⟩
  | named str =>
    rw [grown, Entry.need]
    split_ifs <;> omega

theorem foldl_grown {es : List Entry} {cch : ℕ} (made : cch = 0 ∨ 32 ≤ cch) :
    es.foldl grown cch = es.foldl (fun cch e => max cch e.need) cch := by
  induction es generalizing cch with
  | nil => rfl
  | cons e rest ih =>
    obtain ⟨same, made⟩ := grown_eq made e
    rw [List.foldl_cons, List.foldl_cons, same, ih made]

theorem buffer_eq (es : List Entry) : es.foldl grown 0 = buffer es := foldl_grown (.inl rfl)

theorem buffer_next {i : ℕ} {e : Entry} (there : es[i]? = some e) :
    buffer (es.take (i + 1)) = grown (buffer (es.take i)) e := by
  rw [← buffer_eq, ← buffer_eq, List.take_add_one, there, Option.toList_some, List.foldl_append]
  rfl

theorem prepareNameA_iff (words : Words es) :
    Prepares (prepareNameA cp mallocs) (wantedA cp) es 0 0 ↔ Roomy cp mallocs es := by
  have keeps : ∀ i cch e c cch',
      prepareNameA cp mallocs i cch e = .call c cch' → cch' = grown cch e := by
    intro i cch e c cch' made
    cases e with
    | id n =>
      cases made
      rfl
    | named str =>
      rw [prepareNameA] at made
      rw [grown]
      split_ifs at made ⊢ with grows
      · cases made
        rfl
      · cases made
        rfl
  have step : ∀ e ∈ es, ∀ i cch : ℕ,
      (∃ c cch', prepareNameA cp mallocs i cch e = .call c cch' ∧ wantedA cp e c) ↔
        ∀ str, e = .named str → (cch ≤ str.chars.length → mallocs i = true) ∧
          (cp.convert str.chars).length + 1 ≤ grown cch e := by
    intro e inside i cch
    cases e with
    | id n =>
      refine iff_of_true ⟨_, _, rfl, rfl⟩ fun str same => ?_
      cases same
    | named str =>
      have string := ansiName_isString cp (words str inside)
      rw [prepareNameA, grown, lstrlenWtoA_eq]
      dsimp only
      constructor
      · rintro ⟨c, cch', made, good⟩ other same
        cases same
        split_ifs at made ⊢ with grows memory
        · cases made
          exact ⟨fun _ => memory, good.2⟩
        · cases made
          exact ⟨fun grows' => absurd grows' grows, good.2⟩
      · intro ok
        obtain ⟨memory, fits⟩ := ok str rfl
        split_ifs at fits ⊢ with grows missing
        · exact ⟨_, _, rfl, ⟨_, rfl, string⟩, fits⟩
        · exact absurd (memory grows) missing
        · exact ⟨_, _, rfl, ⟨_, rfl, string⟩, fits⟩
  rw [prepares_iff keeps es step]
  constructor
  · intro all i str there
    have := all i _ there str rfl
    rwa [Nat.zero_add, buffer_eq, ← buffer_next there] at this
  · rintro roomy i e there str rfl
    rw [Nat.zero_add, buffer_eq, ← buffer_next there]
    exact roomy i str there

end Prepare

/-! ## The languages -/

section Languages
variable {wanted : Entry → Call → Prop} {answers : ℕ → ℤ}

theorem enumLangs_calls (ids : ∀ n, wanted (.id n) ⟨.id n, 0, 0⟩) (langs : List ℕ) (i : ℕ)
    (fRet : ℤ) :
    List.Forall₂ wanted ((langs.map Entry.id).take (callCount answers langs.length i))
        (enumLangs answers langs i fRet).calls ∧
      (enumLangs answers langs i fRet).fRet = some (lastAnswer answers langs.length i fRet) := by
  induction langs generalizing i fRet with
  | nil => exact ⟨List.Forall₂.nil, rfl⟩
  | cons n rest ih =>
    rw [List.length_cons, List.map_cons, callCount, enumLangs, lastAnswer]
    by_cases false' : answers i = 0
    · rw [if_pos false', if_pos false', if_pos false', false', List.take_succ_cons, List.take_zero]
      exact ⟨List.Forall₂.cons (ids n) List.Forall₂.nil, rfl⟩
    · rw [if_neg false', if_neg false', if_neg false', List.take_succ_cons]
      obtain ⟨calls, result⟩ := ih (i + 1) (answers i)
      exact ⟨List.Forall₂.cons (ids n) calls, result⟩

theorem lastAnswer_ne_zero (m : ℕ) (fRet : ℤ) :
    (lastAnswer answers m 0 fRet ≠ 0 ↔ AllTrue answers m 0) ↔ (m = 0 → fRet ≠ 0) := by
  by_cases all : AllTrue answers m 0
  · rw [lastAnswer_true all, Nat.zero_add]
    cases m with
    | zero => exact ⟨fun both _ => both.mpr all, fun go => ⟨fun _ => all, fun _ => go rfl⟩⟩
    | succ m =>
      have last := all m (Nat.lt_succ_self m)
      rw [Nat.zero_add] at last
      exact iff_of_true (iff_of_true last all) fun zero => absurd zero (Nat.succ_ne_zero m)
  · rw [lastAnswer_false all]
    refine iff_of_true (iff_of_false (fun h => h rfl) all) fun zero => ?_
    subst zero
    exact absurd (fun j inside => absurd inside (Nat.not_lt_zero j)) all

theorem enumLangs_iff (ids : ∀ n, wanted (.id n) ⟨.id n, 0, 0⟩)
    (onlyIds : ∀ str n, ¬ wanted (.named str) ⟨.id n, 0, 0⟩) (languages : Languages) (fRet : ℤ) :
    Complete wanted languages.entries answers
        (enumLangs answers (languages.ids.map Prod.fst) 0 fRet) ↔
      languages.named = [] ∧ (languages.ids = [] → fRet ≠ 0) := by
  obtain ⟨named, langs⟩ := languages
  have entries : ∀ langs : List (ℕ × ℕ), (Directory.mk [] langs : Languages).entries =
      (langs.map Prod.fst).map Entry.id := by
    intro langs
    rw [List.map_map]
    rfl
  have run := @enumLangs_calls wanted answers ids (langs.map Prod.fst) 0 fRet
  rw [List.length_map] at run
  cases named with
  | nil =>
    have length : ((langs.map Prod.fst).map Entry.id).length = langs.length := by
      rw [List.length_map, List.length_map]
    rw [entries langs]
    constructor
    · rintro ⟨-, fRet', ends, truth⟩
      rw [run.2, Option.some_inj] at ends
      subst ends
      rw [length, noFalse_iff] at truth
      refine ⟨rfl, fun none => (lastAnswer_ne_zero langs.length fRet).mp truth ?_⟩
      exact List.length_eq_zero_iff.mpr none
    · rintro ⟨-, go⟩
      refine ⟨?_, _, run.2, ?_⟩
      · rw [called, length]
        exact run.1
      · rw [length, noFalse_iff]
        exact (lastAnswer_ne_zero langs.length fRet).mpr fun none =>
          go (List.length_eq_zero_iff.mp none)
  | cons e named =>
    refine iff_of_false ?_ fun both => absurd both.1 (List.cons_ne_nil e named)
    rintro ⟨calls, -⟩
    have first : (Directory.mk (e :: named) langs : Languages).entries =
        .named e.1 :: (Directory.mk named langs : Languages).entries := rfl
    have one : 0 < callCount answers ((Directory.mk named langs : Languages).entries.length + 1) 0 :=
      callCount_pos _ _
    obtain ⟨m, count⟩ := Nat.exists_eq_succ_of_ne_zero one.ne'
    rw [called, first, List.length_cons, count, List.take_succ_cons] at calls
    cases langs with
    | nil => cases calls
    | cons l langs =>
      rw [List.map_cons, enumLangs] at calls
      split_ifs at calls
      · exact onlyIds e.1 l.1 (List.forall₂_cons.mp calls).1
      · exact onlyIds e.1 l.1 (List.forall₂_cons.mp calls).1

end Languages

/-! ## The main theorem -/

theorem isBelow_ok {lpszType : ResName} (ok : lpszType.Ok) : isBelow lpszType ≠ false := by
  cases lpszType with
  | id n => exact Bool.true_eq_false.mp
  | str s => exact Bool.true_eq_false.mp
  | getFirst => exact absurd ok id
  | nonsense => exact absurd ok id

theorem enumResource_law (cp : CodePage) (root : Types) (ordered : root.Ordered cp.toLocale)
    (mallocs : ℕ → Bool) (answers : ℕ → ℤ) (fRet : ℤ) :
    (Complete (wantedA cp) root.entries answers
        (enumResourceTypesA cp root mallocs answers fRet) ↔
      (root.entries ≠ [] → fRet ≠ 0) ∧ Memory mallocs (called answers root.entries) ∧
        EndsPositive answers root.entries.length fRet) ∧
    (Complete wantedW root.entries answers (enumResourceTypesW root mallocs answers fRet) ↔
      (root.entries ≠ [] → fRet ≠ 0) ∧ (Memory mallocs (called answers root.entries) ∧
        Terminated (called answers root.entries)) ∧
        EndsPositive answers root.entries.length fRet) ∧
    (∀ lpszType p names, lpszType.Ok → getResSubDirA cp.toLocale root lpszType = some (p, names) →
      (Complete (wantedA cp) names.entries answers
          (enumResourceNamesA cp root mallocs answers lpszType) ↔
        Roomy cp mallocs (called answers names.entries) ∧
          EndsPositive answers names.entries.length 1)) ∧
    (∀ lpszType p names, lpszType.Ok → getResSubDirW cp.toLocale root lpszType = some (p, names) →
      (Complete wantedW names.entries answers
          (enumResourceNamesW cp root mallocs answers lpszType) ↔
        Memory mallocs (called answers names.entries) ∧
          EndsPositive answers names.entries.length 1)) ∧
    (∀ lpszType lpszName p names q languages,
      getResSubDirA cp.toLocale root lpszType = some (p, names) →
      getResSubDirA cp.toLocale names lpszName = some (q, languages) →
      (Complete (wantedA cp) languages.entries answers
          (enumResourceLanguagesA cp root answers lpszType lpszName fRet) ↔
        languages.named = [] ∧ (languages.ids = [] → fRet ≠ 0))) ∧
    (∀ lpszType lpszName p names q languages,
      getResSubDirW cp.toLocale root lpszType = some (p, names) →
      getResSubDirW cp.toLocale names lpszName = some (q, languages) →
      (Complete wantedW languages.entries answers
          (enumResourceLanguagesW cp root answers lpszType lpszName fRet) ↔
        languages.named = [] ∧ (languages.ids = [] → fRet ≠ 0))) := by
  have words : Words root.entries := ordered.1.words_entries
  refine ⟨?_, ?_, ?_, ?_, ?_, ?_⟩
  · rw [enumResourceTypesA, complete_close_iff, prepareTypeA_iff (words.called answers)]
  · rw [enumResourceTypesW, complete_close_iff, prepareTypeW_iff]
  · intro lpszType p names ok found
    have namesOrdered := ((getResSubDirW_iff ordered.1 (ok.wide _) p names).mp found).names_ordered
      ordered
    have namesWords : Words names.entries := namesOrdered.1.words_entries
    rw [enumResourceNamesA, if_neg (isBelow_ok ok), found]
    dsimp only
    rw [complete_close_iff, prepareNameA_iff (namesWords.called answers)]
    exact and_iff_right fun _ => Int.one_ne_zero
  · intro lpszType p names ok found
    rw [enumResourceNamesW, if_neg (isBelow_ok ok), found]
    dsimp only
    rw [complete_close_iff, prepareNameW_iff]
    exact and_iff_right fun _ => Int.one_ne_zero
  · intro lpszType lpszName p names q languages found foundName
    rw [enumResourceLanguagesA, found]
    dsimp only
    rw [foundName]
    refine enumLangs_iff (fun _ => rfl) (fun str n wanted => ?_) languages fRet
    obtain ⟨⟨text, same, -⟩, -⟩ := wanted
    cases same
  · intro lpszType lpszName p names q languages found foundName
    rw [enumResourceLanguagesW, found]
    dsimp only
    rw [foundName]
    refine enumLangs_iff (fun _ => rfl) (fun str n wanted => ?_) languages fRet
    obtain ⟨⟨text, same, -⟩, -⟩ := wanted
    cases same

/-- In a page of ASCII characters, all others become `?`. -/
def plainCp (ch : ℕ) : ℕ := if ch < 0x80 then ch else 0x3f

theorem plainCp_lt (ch : ℕ) : plainCp ch < 0x80 := by
  rw [plainCp]
  split_ifs <;> omega

theorem plainCp_nonzero (ch : ℕ) (nonzero : ch ≠ 0) : plainCp ch % 0x100 ≠ 0 := by
  rw [plainCp]
  split_ifs <;> omega

theorem plainCp_ascii (s : List ℕ) (ascii : IsAscii s) : s.map plainCp = s := by
  refine (List.map_congr_left fun ch inside => ?_).trans (List.map_id' s)
  exact if_pos (ascii ch inside)

theorem plainCp_bytes (s : List ℕ) :
    s.map plainCp = s.flatMap fun ch => ansiBytes (plainCp ch) := by
  rw [List.map_eq_flatMap]
  refine List.flatMap_congr fun ch _ => (if_neg ?_).symm
  have := plainCp_lt ch
  omega

theorem plainCp_single (_ : false = false) (ch : ℕ) : plainCp ch < 0x100 :=
  (plainCp_lt ch).trans (Nat.le_of_ble_eq_true rfl)

theorem plainCp_lead (ch : ℕ) (two : 0x100 ≤ plainCp ch) : false = true :=
  absurd two (Nat.not_le.mpr (plainCp_single rfl ch))

theorem plainCp_notLead (ch : ℕ) (_ : plainCp ch < 0x100) : false = false := rfl

theorem plainUnicode_ascii (s : List ℕ) (_ : IsAscii s) : id s = s := rfl

theorem plainUnicode_chars (s : List ℕ) (chars : 0 ∉ s) : 0 ∉ id s := chars

def plainPage : CodePage where
  toupperW := upcase
  toAscii := List.map plainCp
  toUnicode := id
  defaultLang := 0x409
  toAscii_ascii := plainCp_ascii
  toUnicode_ascii := plainUnicode_ascii
  toUnicode_chars := plainUnicode_chars
  uni2cp := plainCp
  isDBCSEnv := false
  isDBCSLeadByte := fun _ => false
  single := plainCp_single
  nonzero := plainCp_nonzero
  lead := plainCp_lead
  notLead := plainCp_notLead
  toAscii_eq := plainCp_bytes

theorem enumResource_law_types :
    Complete (wantedA plainPage) (oneResource 0x409).entries (fun _ => 1)
      (enumResourceTypesA plainPage (oneResource 0x409) (fun _ => true) (fun _ => 1) 1) :=
  (enumResource_law plainPage (oneResource 0x409) (oneResource_ordered _ _ (by decide))
    (fun _ => true) (fun _ => 1) 1).1.mpr
    ⟨fun _ => Int.one_ne_zero, fun _ _ _ => rfl, fun _ => Int.one_pos⟩

/-- The type `FOO`, with the length of the next name behind it. -/
def fooType : Types := ⟨[(⟨ascii "FOO", fun _ => 3⟩, ⟨[], []⟩)], []⟩

theorem fooType_ordered (loc : Locale) : fooType.Ordered loc := by
  refine ⟨⟨List.Pairwise.nil, fun _ inside => absurd inside List.not_mem_nil,
    List.pairwise_singleton _ _, fun e inside => ?_⟩, fun e inside => ?_,
    fun _ inside => absurd inside List.not_mem_nil⟩
  · obtain rfl := List.mem_singleton.mp inside
    decide
  · obtain rfl := List.mem_singleton.mp inside
    exact ⟨⟨List.Pairwise.nil, fun _ inside => absurd inside List.not_mem_nil,
      List.Pairwise.nil, fun _ inside => absurd inside List.not_mem_nil⟩,
      fun _ inside => absurd inside List.not_mem_nil,
      fun _ inside => absurd inside List.not_mem_nil⟩

/-- The callback gets `FOO` with what follows it. -/
theorem enumResource_not_complete :
    ¬ ∀ (cp : CodePage) (root : Types), root.Ordered cp.toLocale → ∀ answers : ℕ → ℤ,
      Complete wantedW root.entries answers
        (enumResourceTypesW root (fun _ => true) answers 1) := by
  intro all
  have complete := all plainPage fooType (fooType_ordered _) fun _ => 1
  obtain ⟨⟨text, same, string⟩, -⟩ := (List.forall₂_cons.mp complete.calls).1
  cases same
  have zero := (text_isString_iff ⟨ascii "FOO", fun _ => 3⟩).mp string
  cases zero

end Odin32.ResTree
