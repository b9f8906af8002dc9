import Odin32.LangCpp
import Mathlib.Data.List.TakeWhile
import Mathlib.Order.Nat

/-! # Runs over a source

The comment checks agree with the comments of a line. The entries of the stack agree with the
conditionals, except that an entry only tells whether its `#else` has been passed with `fSupported`
set. From one line to the next this is kept, and it decides what is looked up. -/

set_option autoImplicit false

namespace Odin32.LangCpp

/-! ## Comments -/

theorem strstr_length {a b : Char} {psz mark : List Char} (found : strstr a b psz = some mark) :
    mark.length ≤ psz.length := by
  induction psz with
  | nil => cases found
  | cons ch psz ih =>
    cases psz with
    | nil => cases found
    | cons next rest =>
      rw [strstr] at found
      split_ifs at found with here
      · obtain rfl := Option.some.inj found
        exact le_rfl
      · exact (ih found).trans (Nat.le_succ _)

theorem openBehind_true (psz : List Char) :
    openBehind true psz =
      match strstr '*' '/' psz with
      | none => true
      | some mark => openBehind false (mark.drop 2) := by
  induction psz with
  | nil => rfl
  | cons ch psz ih =>
    cases psz with
    | nil => rfl
    | cons next rest =>
      rw [openBehind, strstr]
      by_cases here : ch = '*' ∧ next = '/'
      · rw [if_pos here, if_pos here]
        rfl
      · rw [if_neg here, if_neg here]
        exact ih

theorem openBehind_false (psz : List Char) :
    openBehind false psz =
      match strstr '/' '*' psz with
      | none => false
      | some mark =>
        match strstr '/' '/' psz with
        | none => openBehind true (mark.drop 2)
        | some pszLC =>
          if mark.length < pszLC.length then false else openBehind true (mark.drop 2) := by
  induction psz with
  | nil => rfl
  | cons ch psz ih =>
    cases psz with
    | nil => rfl
    | cons next rest =>
      rw [openBehind, strstr, strstr]
      by_cases single : ch = '/' ∧ next = '/'
      · obtain ⟨rfl, rfl⟩ := single
        rw [if_pos ⟨rfl, rfl⟩, if_neg (by decide), if_pos ⟨rfl, rfl⟩]
        cases found : strstr '/' '*' ('/' :: rest) with
        | none => rfl
        | some mark =>
          have shorter := strstr_length found
          exact (if_pos (Nat.lt_succ_of_le shorter)).symm
      · rw [if_neg single, if_neg single]
        by_cases multi : ch = '/' ∧ next = '*'
        · obtain ⟨rfl, rfl⟩ := multi
          rw [if_pos ⟨rfl, rfl⟩, if_pos ⟨rfl, rfl⟩]
          cases found : strstr '/' '/' ('*' :: rest) with
          | none => rfl
          | some pszLC =>
            have shorter := strstr_length found
            have later : ¬ ('/' :: '*' :: rest).length < pszLC.length := by
              rw [List.length_cons]
              omega
            exact (if_neg later).symm
        · rw [if_neg multi, if_neg multi]
          exact ih

theorem commentLoop_eq (marks : ℕ) (fComment : Bool) (psz : List Char)
    (enough : psz.length ≤ marks) : commentLoop marks fComment psz = openBehind fComment psz := by
  induction marks generalizing fComment psz with
  | zero =>
    obtain rfl := List.length_eq_zero_iff.mp (Nat.le_zero.mp enough)
    cases fComment <;> rfl
  | succ marks ih =>
    have behind {a b : Char} {mark : List Char} (found : strstr a b psz = some mark)
        (opened : Bool) :
        commentLoop marks opened (mark.drop 2) = openBehind opened (mark.drop 2) := by
      have := strstr_length found
      refine ih opened _ ?_
      rw [List.length_drop]
      omega
    rw [commentLoop]
    by_cases empty : psz = []
    · subst empty
      cases fComment <;> rfl
    · rw [if_neg empty]
      cases fComment with
      | true =>
        rw [if_pos rfl, openBehind_true]
        cases found : strstr '*' '/' psz with
        | none => rfl
        | some mark => exact behind found false
      | false =>
        rw [if_neg Bool.false_ne_true, openBehind_false]
        cases found : strstr '/' '*' psz with
        | none => rfl
        | some mark =>
          cases strstr '/' '/' psz with
          | none => exact behind found true
          | some pszLC =>
            dsimp only
            rw [behind found true]

theorem comments_eq (fComment : Bool) (psz : List Char) :
    comments fComment psz = openBehind fComment psz :=
  commentLoop_eq _ _ _ le_rfl

theorem openBehind_skip (fComment : Bool) (skipped psz : List Char)
    (plain : ∀ ch ∈ skipped, ch ≠ '/' ∧ ch ≠ '*') :
    openBehind fComment (skipped ++ psz) = openBehind fComment psz := by
  induction skipped with
  | nil => rfl
  | cons ch skipped ih =>
    obtain ⟨no_slash, no_star⟩ := plain ch List.mem_cons_self
    have later := ih fun other among => plain other (List.mem_cons_of_mem _ among)
    rw [← later, List.cons_append]
    cases skipped ++ psz with
    | nil => cases fComment <;> rfl
    | cons next rest =>
      cases fComment with
      | true => rw [openBehind, if_neg fun both => no_star both.1]
      | false =>
        rw [openBehind, if_neg fun both => no_slash both.1, if_neg fun both => no_slash both.1]

theorem plain_of_blank {ch : Char} (is_blank : blank ch = true) : ch ≠ '/' ∧ ch ≠ '*' := by
  constructor <;> rintro rfl <;> cases is_blank

theorem openBehind_blanks (fComment : Bool) (psz : List Char) :
    openBehind fComment (psz.dropWhile blank) = openBehind fComment psz := by
  conv_rhs => rw [← psz.takeWhile_append_dropWhile (p := blank)]
  rw [openBehind_skip]
  intro ch among
  exact plain_of_blank (List.mem_takeWhile_imp among)

/-! ## Words -/

theorem strncmpEq_word (word argument key : List Char) :
    strncmpEq word.length (word ++ argument) key = decide (word <+: key) := by
  induction word generalizing key with
  | nil => rw [decide_eq_true List.nil_prefix]; rfl
  | cons ch word ih =>
    cases key with
    | nil => rfl
    | cons other key =>
      rw [List.length_cons, List.cons_append, strncmpEq, ih]
      by_cases same : ch = other
      · simp [same, List.cons_prefix_cons]
      · simp [same, List.cons_prefix_cons]

theorem strncmpEq_key (psz key : List Char) :
    strncmpEq key.length psz key = decide (key <+: psz) := by
  induction key generalizing psz with
  | nil => rw [decide_eq_true List.nil_prefix]; rfl
  | cons ch key ih =>
    cases psz with
    | nil => rfl
    | cons other psz =>
      rw [List.length_cons, strncmpEq, ih]
      by_cases same : other = ch
      · simp [same, List.cons_prefix_cons]
      · simp [same, Ne.symm same, List.cons_prefix_cons]

theorem prefix_word {key psz : List Char} (chars : ∀ ch ∈ key, wordChar ch = true) :
    key <+: psz ↔ key <+: psz.takeWhile wordChar := by
  constructor
  · intro before
    induction key generalizing psz with
    | nil => exact List.nil_prefix
    | cons ch key ih =>
      cases psz with
      | nil => cases List.prefix_nil.mp before
      | cons other psz =>
        obtain ⟨rfl, behind⟩ := List.cons_prefix_cons.mp before
        rw [List.takeWhile_cons, if_pos (chars ch List.mem_cons_self)]
        exact List.cons_prefix_cons.mpr
          ⟨rfl, ih (fun other among => chars other (List.mem_cons_of_mem _ among)) behind⟩
  · exact fun before => before.trans (List.takeWhile_prefix _)

theorem skipBlanks_cases (line : List Char) :
    skipBlanks line = line.dropWhile blank ∨
    ∃ ch rest, skipBlanks line = ch :: rest ∧ blank ch = true ∧ rest.length < 2 ∧
      line.dropWhile blank = rest.dropWhile blank := by
  induction line with
  | nil => exact .inl rfl
  | cons ch line ih =>
    cases is_blank : blank ch with
    | true =>
      rw [skipBlanks, List.dropWhile_cons, if_pos is_blank]
      by_cases more : 2 ≤ line.length
      · rw [if_pos ⟨more, is_blank⟩]
        exact ih
      · rw [if_neg fun both => more both.1]
        exact .inr ⟨ch, line, rfl, is_blank, not_le.mp more, rfl⟩
    | false =>
      have stays : ¬ blank ch = true := by
        rw [is_blank]
        exact Bool.false_ne_true
      rw [skipBlanks, List.dropWhile_cons, if_neg fun both => stays both.2, if_neg stays]
      exact .inl rfl

theorem openBehind_skipBlanks (fComment : Bool) (line : List Char) :
    openBehind fComment (skipBlanks line) = openBehind fComment line := by
  rw [← openBehind_blanks fComment line]
  obtain same | ⟨ch, rest, skipped, is_blank, _, same⟩ := skipBlanks_cases line
  · rw [same]
  · rw [skipped, same, ← openBehind_blanks, List.dropWhile_cons, if_pos is_blank]

/-! ## The stack -/

/-- What the stack tells of the conditionals. -/
structure Stacked (s : State) (cs : List Conditional) (supported : ℕ → Bool) : Prop where
  depth : s.iIfStack = cs.length
  base : (s.achIfStack 0).fIncluded = true
  slots : ∀ n, (s.achIfStack (n + 1)).fSupported = supported (n + 1)
  entries : ∀ c outer, c :: outer <:+ cs →
    (s.achIfStack (outer.length + 1)).fIncluded = !(c.elsed && supported (outer.length + 1))

namespace Stacked

variable {s : State} {c : Conditional} {cs : List Conditional} {supported : ℕ → Bool}

theorem commented (stacked : Stacked s cs supported) (psz : List Char) :
    Stacked (s.commented psz) cs supported :=
  ⟨stacked.depth, stacked.base, stacked.slots, stacked.entries⟩

theorem push (stacked : Stacked s cs supported) (room : cs.length < 255) {entry : IfStackEntry}
    {supported' : ℕ → Bool} (new : c.elsed = false) (included : entry.fIncluded = true)
    (slot : entry.fSupported = supported' (cs.length + 1))
    (others : ∀ n, n ≠ cs.length + 1 → supported' n = supported n) :
    s.push = some { s with iIfStack := s.iIfStack + 1 } ∧
      Stacked (State.setEntry { s with iIfStack := s.iIfStack + 1 } entry) (c :: cs)
        supported' := by
  have depth := stacked.depth
  have here (n : ℕ) (other : n ≠ cs.length + 1) :
      (State.setEntry { s with iIfStack := s.iIfStack + 1 } entry).achIfStack n =
        s.achIfStack n := by
    refine Function.update_of_ne ?_ _ _
    rw [depth]
    exact other
  have top : (State.setEntry { s with iIfStack := s.iIfStack + 1 } entry).achIfStack
      (cs.length + 1) = entry := by
    rw [← depth]
    exact Function.update_self ..
  refine ⟨if_pos (show s.iIfStack + 1 < 256 by omega), ?_⟩
  exact {
    depth := by
      show s.iIfStack + 1 = _
      rw [depth, List.length_cons]
    base := by
      rw [here 0 (Nat.succ_ne_zero _).symm]
      exact stacked.base
    slots := fun n => by
      by_cases same : n = cs.length
      · rw [same, top, slot]
      · have other : n + 1 ≠ cs.length + 1 := fun eq => same (Nat.succ.inj eq)
        rw [here _ other, stacked.slots, others _ other]
    entries := fun c' outer suffix => by
      rcases List.suffix_cons_iff.mp suffix with same | inner
      · cases same
        rw [top, included, new, Bool.false_and, Bool.not_false]
      · have shorter := inner.length_le
        rw [List.length_cons] at shorter
        have other : outer.length + 1 ≠ cs.length + 1 := by omega
        rw [here _ other, stacked.entries c' outer inner, others _ other] }

theorem setEntry (stacked : Stacked s (c :: cs) supported) {entry : IfStackEntry}
    {c' : Conditional}
    (included : entry.fIncluded = !(c'.elsed && supported (cs.length + 1)))
    (slot : entry.fSupported = supported (cs.length + 1)) :
    Stacked (s.setEntry entry) (c' :: cs) supported := by
  have depth : s.iIfStack = cs.length + 1 := stacked.depth
  have here (n : ℕ) (other : n ≠ cs.length + 1) :
      (s.setEntry entry).achIfStack n = s.achIfStack n := by
    refine Function.update_of_ne ?_ _ _
    rw [depth]
    exact other
  have top : (s.setEntry entry).achIfStack (cs.length + 1) = entry := by
    rw [← depth]
    exact Function.update_self ..
  exact {
    depth := depth
    base := by
      rw [here 0 (Nat.succ_ne_zero _).symm]
      exact stacked.base
    slots := fun n => by
      by_cases same : n = cs.length
      · rw [same, top, slot]
      · rw [here _ fun eq => same (Nat.succ.inj eq), stacked.slots]
    entries := fun d outer suffix => by
      rcases List.suffix_cons_iff.mp suffix with same | inner
      · cases same
        rw [top, included]
      · have shorter := inner.length_le
        rw [List.length_cons] at shorter
        have other : outer.length + 1 ≠ cs.length + 1 := by omega
        rw [here _ other, stacked.entries d outer (inner.trans (List.suffix_cons _ _))] }

theorem entry_included (stacked : Stacked s (c :: cs) supported) :
    s.entry.fIncluded = !(c.elsed && supported (cs.length + 1)) := by
  rw [State.entry, stacked.depth]
  exact stacked.entries c cs List.suffix_rfl

theorem entry_supported (stacked : Stacked s (c :: cs) supported) :
    s.entry.fSupported = supported (cs.length + 1) := by
  rw [State.entry, stacked.depth]
  exact stacked.slots cs.length

theorem toggled {comment : Bool} (stacked : Stacked s cs supported) :
    s.entry.fIncluded = !LangCpp.toggled ⟨comment, cs⟩ supported := by
  cases cs with
  | nil =>
    rw [State.entry, stacked.depth]
    exact stacked.base
  | cons c cs => exact stacked.entry_included

theorem elses (stacked : Stacked s (c :: cs) supported) (first : c.elsed = false) :
    Stacked (s.setEntry (elseEntry s.entry)) ({ c with other := true, elsed := true } :: cs)
      supported := by
  have included := stacked.entry_included
  have slot := stacked.entry_supported
  rw [first, Bool.false_and, Bool.not_false] at included
  cases has : supported (cs.length + 1) with
  | true =>
    rw [has] at slot
    refine stacked.setEntry ?_ ?_
    · rw [elseEntry, slot, has, if_pos rfl, included]
      rfl
    · rw [elseEntry, slot, has, if_pos rfl]
  | false =>
    rw [has] at slot
    refine stacked.setEntry ?_ ?_
    · rw [elseEntry, slot, has, if_neg Bool.false_ne_true]
      exact included
    · rw [elseEntry, slot, has, if_neg Bool.false_ne_true]
      exact slot

theorem elifs (stacked : Stacked s (c :: cs) supported) :
    Stacked s ({ c with other := true } :: cs) supported where
  depth := stacked.depth
  base := stacked.base
  slots := stacked.slots
  entries d outer suffix := by
    rcases List.suffix_cons_iff.mp suffix with same | inner
    · cases same
      exact stacked.entries c cs List.suffix_rfl
    · exact stacked.entries d outer (inner.trans (List.suffix_cons _ _))

theorem pop (stacked : Stacked s (c :: cs) supported) :
    Stacked { s with iIfStack := s.iIfStack - 1 } cs supported where
  depth := by
    show s.iIfStack - 1 = _
    rw [stacked.depth, List.length_cons, Nat.add_sub_cancel]
  base := stacked.base
  slots := stacked.slots
  entries d outer suffix := stacked.entries d outer (suffix.trans (List.suffix_cons _ _))

end Stacked

/-! ## Directives -/

theorem strncmpEq_first (psz key : List Char) :
    strncmpEq (psz.length - (findEndOfWord psz).length) psz key =
      decide (psz.takeWhile wordChar <+: key) := by
  have split := psz.takeWhile_append_dropWhile (p := wordChar)
  have length : psz.length - (findEndOfWord psz).length =
      (psz.takeWhile wordChar).length := by
    have total := congrArg List.length split
    rw [List.length_append] at total
    rw [findEndOfWord]
    omega
  have first := strncmpEq_word (psz.takeWhile wordChar) (psz.dropWhile wordChar) key
  rw [split] at first
  rw [length, first]

theorem szElseif_chars : ∀ ch ∈ szElseif, wordChar ch = true := List.all_eq_true.mp rfl

theorem szIf_chars : ∀ ch ∈ szIf, wordChar ch = true := List.all_eq_true.mp rfl

theorem directive_word (env : Env) (s : State) (szBuffer psz : List Char) :
    directive env s szBuffer psz =
      if psz.takeWhile wordChar <+: szInclude then
        if s.entry.fIncluded then includeLine env s szBuffer psz else some (s.commented psz, [])
      else if psz.takeWhile wordChar <+: szIf then
        s.push.map fun s' => ((s'.setEntry (ifEntry s'.entry
          ((findEndOfWord psz).dropWhile blank))).commented psz, [])
      else if psz.takeWhile wordChar <+: szElse then
        some ((s.setEntry (elseEntry s.entry)).commented psz, [])
      else if psz.takeWhile wordChar <+: szEndif then
        if s.iIfStack > 0 then
          some (State.commented { s with iIfStack := s.iIfStack - 1 } psz, [])
        else some (s.commented psz, [.underflow])
      else if szElseif <+: psz.takeWhile wordChar then
        some ((s.setEntry { s.entry with fSupported := false, fIncluded := true }).commented psz,
          [])
      else if szIf <+: psz.takeWhile wordChar then
        s.push.map fun s' => ((s'.setEntry ⟨true, true, false⟩).commented psz, [])
      else some (s.commented psz, []) := by
  have elseif : strncmpEq 6 psz szElseif = decide (szElseif <+: psz.takeWhile wordChar) :=
    (strncmpEq_key psz szElseif).trans (decide_eq_decide.mpr (prefix_word szElseif_chars))
  have ifs : strncmpEq 2 psz szIf = decide (szIf <+: psz.takeWhile wordChar) :=
    (strncmpEq_key psz szIf).trans (decide_eq_decide.mpr (prefix_word szIf_chars))
  rw [directive]
  simp only [strncmpEq_first, elseif, ifs, decide_eq_true_eq]

theorem single_iff (argument : List Char) :
    ((argument.dropWhile blank).length - (findEndOfWord (argument.dropWhile blank)).length = 1 ∧
      (argument.dropWhile blank).head?.any digit = true) ↔ single argument = true := by
  rw [single]
  cases argument.dropWhile blank with
  | nil => simp
  | cons ch rest =>
    cases is_digit : digit ch with
    | false => simp [is_digit]
    | true =>
      have is_word : wordChar ch = true := by simp [wordChar, is_digit]
      have shorter := (rest.dropWhile_suffix wordChar).length_le
      rw [findEndOfWord, List.dropWhile_cons, if_pos is_word]
      cases rest with
      | nil => simp [is_digit]
      | cons next rest =>
        cases more : wordChar next with
        | false =>
          rw [List.dropWhile_cons, if_neg (by rw [more]; exact Bool.false_ne_true)]
          simp [is_digit, more]
        | true =>
          have even_shorter := (rest.dropWhile_suffix wordChar).length_le
          rw [List.dropWhile_cons, if_pos more]
          simp only [List.length_cons, List.head?_cons, Option.any_some, is_digit, more]
          constructor
          · rintro ⟨one, _⟩
            omega
          · rintro ⟨⟩

theorem ifEntry_fSupported (entry : IfStackEntry) (argument : List Char) :
    (ifEntry entry (argument.dropWhile blank)).fSupported =
      (single argument && entry.fSupported) := by
  rw [ifEntry]
  cases one : single argument with
  | true =>
    rw [if_pos ((single_iff argument).mpr one)]
    rfl
  | false =>
    rw [if_neg fun both => Bool.noConfusion (one.symm.trans ((single_iff argument).mp both))]
    rfl

theorem findStart_skip (skipped psz : List Char) (plain : '"' ∉ skipped ∧ '<' ∉ skipped) :
    findStart (skipped ++ psz) = findStart psz := by
  induction skipped with
  | nil => rfl
  | cons ch skipped ih =>
    obtain ⟨no_quote, no_angle⟩ := plain
    rw [List.mem_cons, not_or] at no_quote no_angle
    rw [List.cons_append, findStart, if_neg fun eq => no_quote.1 eq.symm,
      if_neg fun eq => no_angle.1 eq.symm]
    exact ih ⟨no_quote.2, no_angle.2⟩

theorem findStart_none (psz : List Char) (plain : '"' ∉ psz ∧ '<' ∉ psz) :
    findStart psz = none := by
  have skipped := findStart_skip psz [] plain
  rw [List.append_nil] at skipped
  exact skipped

theorem findName_eq (reach : ℕ) (name rest : List Char) {close : Char}
    (closes : close = '"' ∨ close = '>') (plain : '"' ∉ name ∧ '>' ∉ name)
    (short : name.length < reach) : findName reach (name ++ close :: rest) = some name := by
  induction name generalizing reach with
  | nil =>
    obtain ⟨reach, rfl⟩ := Nat.exists_eq_add_one_of_ne_zero (Nat.ne_of_gt short)
    exact if_pos closes
  | cons ch name ih =>
    obtain ⟨reach, rfl⟩ := Nat.exists_eq_add_one_of_ne_zero (Nat.ne_of_gt (Nat.zero_lt_of_lt short))
    obtain ⟨no_quote, no_angle⟩ := plain
    rw [List.mem_cons, not_or] at no_quote no_angle
    have goes : ¬ (ch = '"' ∨ ch = '>') := by
      rintro (eq | eq)
      · exact no_quote.1 eq.symm
      · exact no_angle.1 eq.symm
    rw [List.cons_append, findName, if_neg goes, ih reach ⟨no_quote.2, no_angle.2⟩
      (Nat.lt_of_succ_lt_succ short)]
    rfl

/-! ## One line -/

/-- What a line leaves and shows. -/
def LineRight (p : Place) (supported : ℕ → Bool) (line : List Char)
    (result : Option (State × List Event)) : Prop :=
  ∃ s' events, result = some (s', events) ∧ events.filterMap Event.name = p.names line ∧
    s'.fComment = (p.behind line).comment ∧
    Stacked s' (p.behind line).conditionals (supportedBehind p supported line)

section Line

variable {env : Env} {s : State} {p : Place} {supported : ℕ → Bool} {line : List Char}
  {word argument : List Char}

theorem names_of (at_line : p.directive line = some (word, argument)) :
    p.names line =
      if word = szInclude ∧ p.excluded = false then ((headerName argument).map strlwr).toList
      else [] := by
  rw [Place.names, at_line]

theorem behind_of (at_line : p.directive line = some (word, argument)) :
    (p.behind line).conditionals = conditionalsBehind p.conditionals word argument := by
  rw [Place.behind, at_line]

theorem supportedBehind_of (at_line : p.directive line = some (word, argument)) :
    supportedBehind p supported line =
      if word = szIf ∧ single argument = false ∨ word = szIfdef ∨ word = szIfndef then
        Function.update supported (p.conditionals.length + 1) false
      else supported := by
  rw [supportedBehind, at_line]

theorem slots_of (at_line : p.directive line = some (word, argument))
    (other : word ∉ [szIf, szIfdef, szIfndef]) : supportedBehind p supported line = supported := by
  rw [supportedBehind_of at_line, if_neg]
  rintro (⟨rfl, _⟩ | rfl | rfl)
  · exact other List.mem_cons_self
  · exact other (List.mem_cons_of_mem _ List.mem_cons_self)
  · exact other (List.mem_cons_of_mem _ (List.mem_cons_of_mem _ List.mem_cons_self))

theorem LineRight.plain {s' : State} {events : List Event}
    (stacked : Stacked s' p.conditionals supported)
    (comment : s'.fComment = openBehind p.comment line)
    (names : events.filterMap Event.name = p.names line)
    (same : (p.behind line).conditionals = p.conditionals)
    (slots : supportedBehind p supported line = supported) :
    LineRight p supported line (some (s', events)) := by
  refine ⟨s', events, rfl, names, comment, ?_⟩
  rw [same, slots]
  exact stacked

theorem headerName_none (no_quote : '"' ∉ argument) (no_angle : '<' ∉ argument) :
    headerName argument = none := by
  have subset := (argument.dropWhile_suffix blank).subset
  rw [headerName]
  split
  · next rest quoted =>
    rw [quoted] at subset
    exact absurd (subset List.mem_cons_self) no_quote
  · next rest angled =>
    rw [angled] at subset
    exact absurd (subset List.mem_cons_self) no_angle
  · rfl

theorem takeWhile_close {close : Char} {name : List Char} (rest : List Char)
    (plain : close ∉ name) : (name ++ close :: rest).takeWhile (· ≠ close) = name := by
  rw [List.takeWhile_append_of_pos, List.takeWhile_cons_of_neg, List.append_nil]
  · simp
  · intro ch among
    have other : ch ≠ close := fun same => plain (same ▸ among)
    exact decide_eq_true other

theorem headerName_eq {fQuote : Bool} {name rest : List Char}
    (header : argument.dropWhile blank =
      (if fQuote then '"' else '<') :: (name ++ (if fQuote then '"' else '>') :: rest))
    (no_quote : '"' ∉ name) (no_angle : '>' ∉ name) : headerName argument = some name := by
  rw [headerName, header]
  cases fQuote with
  | true =>
    show (if '"' ∈ name ++ '"' :: rest then some ((name ++ '"' :: rest).takeWhile _) else none) = _
    rw [if_pos (List.mem_append_right _ List.mem_cons_self), takeWhile_close rest no_quote]
  | false =>
    show (if '>' ∈ name ++ '>' :: rest then some ((name ++ '>' :: rest).takeWhile _) else none) = _
    rw [if_pos (List.mem_append_right _ List.mem_cons_self), takeWhile_close rest no_angle]

theorem plain_blanks (psz : List Char) :
    '"' ∉ psz.takeWhile blank ∧ '<' ∉ psz.takeWhile blank := by
  constructor <;> intro among <;> cases List.mem_takeWhile_imp among

theorem includeLine_right (stacked : Stacked s p.conditionals supported)
    (comment : s.fComment = false) (outside : p.comment = false)
    (at_line : p.directive line = some (szInclude, argument)) (read : p.excluded = false)
    (fits : IncludeFits env line argument) :
    LineRight p supported line (includeLine env s line (szInclude ++ argument)) := by
  have same : (p.behind line).conditionals = p.conditionals := by
    rw [behind_of at_line]
    rfl
  have slots := @slots_of _ supported _ _ _ at_line (by decide)
  have names : p.names line = ((headerName argument).map strlwr).toList := by
    rw [names_of at_line, if_pos ⟨rfl, read⟩]
  obtain ⟨no_quote, no_angle, closed⟩ | ⟨fQuote, name, rest, header, no_quote, no_angle, short,
    reaches, agrees⟩ := fits
  · have none_found : findStart (szInclude ++ argument) = none := by
      rw [findStart_skip _ _ (by decide)]
      exact findStart_none _ ⟨no_quote, no_angle⟩
    rw [includeLine, none_found]
    refine .plain stacked ?_ ?_ same slots
    · rw [comment, outside, closed]
    · rw [names, headerName_none no_quote no_angle]
      rfl
  · have found : findStart (szInclude ++ argument) =
        some (fQuote, name ++ (if fQuote then '"' else '>') :: rest) := by
      rw [findStart_skip _ _ (by decide), ← argument.takeWhile_append_dropWhile (p := blank),
        findStart_skip _ _ (plain_blanks argument), header]
      cases fQuote <;> rfl
    have closes : (if fQuote then '"' else '>') = '"' ∨ (if fQuote then '"' else '>') = '>' := by
      cases fQuote
      · exact .inr rfl
      · exact .inl rfl
    have length : (name ++ (if fQuote then '"' else '>') :: rest).length =
        name.length + 1 + rest.length := by
      rw [List.length_append, List.length_cons]
      omega
    rw [includeLine, found]
    dsimp only
    rw [findName_eq cchMaxPath name rest closes ⟨no_quote, no_angle⟩ short]
    dsimp only
    rw [length, if_pos reaches]
    refine .plain (stacked.commented _) ?_ ?_ same slots
    · show comments s.fComment _ = _
      rw [comments_eq, comment, outside, agrees]
    · rw [names, headerName_eq header no_quote no_angle]
      have silent : Event.name (includeEvent env (findInclude env fQuote (strlwr name))
          (strlwr name)) = none := by
        rw [includeEvent]
        split_ifs <;> rfl
      have shown : Event.name (.lookup (strlwr name)) = some (strlwr name) := rfl
      rw [List.filterMap_cons_some shown, List.filterMap_cons_none silent]
      rfl

theorem push_right {psz : List Char} {c : Conditional} {entry : IfStackEntry}
    (stacked : Stacked s p.conditionals supported) (room : p.conditionals.length < 255)
    (comment : s.fComment = false) (closes : openBehind false psz = openBehind p.comment line)
    (names : p.names line = []) (same : (p.behind line).conditionals = c :: p.conditionals)
    (new : c.elsed = false) (included : entry.fIncluded = true)
    (slot : entry.fSupported = supportedBehind p supported line (p.conditionals.length + 1))
    (others : ∀ n, n ≠ p.conditionals.length + 1 →
      supportedBehind p supported line n = supported n)
    (f : State → State × List Event)
    (fills : f { s with iIfStack := s.iIfStack + 1 } =
      ((State.setEntry { s with iIfStack := s.iIfStack + 1 } entry).commented psz, [])) :
    LineRight p supported line (s.push.map f) := by
  obtain ⟨pushed, stacked'⟩ := stacked.push room new included slot others
  refine ⟨_, [], by rw [pushed, Option.map_some, fills], names.symm, ?_, ?_⟩
  · show comments s.fComment psz = openBehind p.comment line
    rw [comments_eq, comment, closes]
  · rw [same]
    exact stacked'.commented psz

theorem if_word (before : word <+: szIf) (other : ¬ word <+: szInclude) : word = szIf := by
  obtain rfl | ⟨rest, rfl, behind⟩ := List.prefix_cons_iff.mp before
  · exact absurd List.nil_prefix other
  · obtain rfl | ⟨rest, rfl, last⟩ := List.prefix_cons_iff.mp behind
    · exact absurd (by decide) other
    · rw [List.prefix_nil.mp last]
      rfl

theorem names_nil (at_line : p.directive line = some (word, argument)) (other : word ≠ szInclude) :
    p.names line = [] := by
  rw [names_of at_line, if_neg fun both => other both.1]

theorem commented_closes {psz : List Char} (comment : s.fComment = false)
    (closes : openBehind false psz = openBehind p.comment line) :
    (s.commented psz).fComment = openBehind p.comment line := by
  show comments s.fComment psz = _
  rw [comments_eq, comment, closes]

section Directive

variable {psz : List Char}

theorem include_right (stacked : Stacked s p.conditionals supported) (comment : s.fComment = false)
    (outside : p.comment = false) (closes : openBehind false psz = openBehind p.comment line)
    (at_line : p.directive line = some (szInclude, argument)) (split : szInclude ++ argument = psz)
    (fits : LineFits env p supported line) :
    LineRight p supported line
      (if s.entry.fIncluded then includeLine env s line psz else some (s.commented psz, [])) := by
  have included := (@Stacked.toggled _ _ _ p.comment stacked).trans
    (congrArg not (fits.branch _ at_line).symm)
  cases excluded : p.excluded with
  | true =>
    rw [excluded] at included
    rw [included, Bool.not_true, if_neg Bool.false_ne_true]
    refine .plain (stacked.commented psz) (commented_closes comment closes) ?_ ?_
      (slots_of at_line (by decide))
    · rw [names_of at_line, excluded, if_neg fun both => Bool.noConfusion both.2]
      rfl
    · rw [behind_of at_line]
      rfl
  | false =>
    rw [excluded] at included
    rw [included, Bool.not_false, if_pos rfl, ← split]
    exact includeLine_right stacked comment outside at_line excluded
      (fits.named _ at_line excluded)

theorem null_right (stacked : Stacked s p.conditionals supported) (comment : s.fComment = false)
    (closes : openBehind false [] = openBehind p.comment line)
    (at_line : p.directive line = some ([], argument)) :
    LineRight p supported line
      (if s.entry.fIncluded then includeLine env s line [] else some (s.commented [], [])) := by
  have same : (p.behind line).conditionals = p.conditionals := by
    rw [behind_of at_line]
    rfl
  have names := names_nil at_line (by decide)
  have slots := @slots_of _ supported _ _ _ at_line (by decide)
  cases s.entry.fIncluded with
  | true => exact .plain stacked (comment.trans closes) names.symm same slots
  | false =>
    exact .plain (stacked.commented []) (commented_closes comment closes) names.symm same slots

theorem if_right (stacked : Stacked s p.conditionals supported) (comment : s.fComment = false)
    (closes : openBehind false psz = openBehind p.comment line)
    (at_line : p.directive line = some (szIf, argument))
    (at_argument : psz.dropWhile wordChar = argument) (fits : LineFits env p supported line) :
    LineRight p supported line
      (s.push.map fun s' => ((s'.setEntry (ifEntry s'.entry
        ((findEndOfWord psz).dropWhile blank))).commented psz, [])) := by
  have slots := @supportedBehind_of _ supported _ _ _ at_line
  have old : (State.entry { s with iIfStack := s.iIfStack + 1 }).fSupported =
      supported (p.conditionals.length + 1) := by
    rw [State.entry, stacked.depth]
    exact stacked.slots _
  refine push_right (c := ⟨constantOf argument, false, false⟩) stacked
    (fits.room _ _ at_line List.prefix_rfl) comment closes (names_nil at_line (by decide))
    (by rw [behind_of at_line]; rfl) rfl rfl ?_ ?_ _ rfl
  · rw [findEndOfWord, at_argument, ifEntry_fSupported, old, slots]
    cases one : single argument with
    | true =>
      rw [if_neg, Bool.true_and]
      rintro (⟨_, eq⟩ | eq | eq) <;> cases eq
    | false => rw [if_pos (.inl ⟨rfl, rfl⟩), Function.update_self, Bool.false_and]
  · intro n other
    rw [slots]
    split_ifs
    · exact Function.update_of_ne other _ _
    · rfl

theorem ifdef_right (stacked : Stacked s p.conditionals supported) (comment : s.fComment = false)
    (closes : openBehind false psz = openBehind p.comment line)
    (at_line : p.directive line = some (word, argument)) (is_if : szIf <+: word)
    (not_if : word ≠ szIf) (not_include : word ≠ szInclude) (regular : LineRegular p line)
    (fits : LineFits env p supported line) :
    LineRight p supported line
      (s.push.map fun s' => ((s'.setEntry ⟨true, true, false⟩).commented psz, [])) := by
  have ifdefs : word = szIfdef ∨ word = szIfndef :=
    (regular.ifs _ _ at_line is_if).resolve_left not_if
  have slots := @supportedBehind_of _ supported _ _ _ at_line
  rw [if_pos (.inr ifdefs)] at slots
  refine push_right (c := ⟨none, false, false⟩) stacked (fits.room _ _ at_line is_if) comment
    closes (names_nil at_line not_include) ?_ rfl rfl ?_ ?_ _ rfl
  · rw [behind_of at_line, conditionalsBehind.eq_def, if_neg not_if, if_pos ifdefs]
  · rw [slots, Function.update_self]
  · intro n other
    rw [slots]
    exact Function.update_of_ne other _ _

theorem else_right (stacked : Stacked s p.conditionals supported) (comment : s.fComment = false)
    (closes : openBehind false psz = openBehind p.comment line)
    (at_line : p.directive line = some (szElse, argument)) (regular : LineRegular p line) :
    LineRight p supported line
      (some ((s.setEntry (elseEntry s.entry)).commented psz, [])) := by
  obtain ⟨c, cs, at_p, first⟩ := regular.elses _ at_line
  rw [at_p] at stacked
  refine ⟨_, [], rfl, (names_nil at_line (by decide)).symm, commented_closes comment closes, ?_⟩
  rw [behind_of at_line, at_p, slots_of at_line (by decide)]
  exact (stacked.elses first).commented psz

theorem endif_right (stacked : Stacked s p.conditionals supported) (comment : s.fComment = false)
    (closes : openBehind false psz = openBehind p.comment line)
    (at_line : p.directive line = some (szEndif, argument)) (regular : LineRegular p line) :
    LineRight p supported line
      (if s.iIfStack > 0 then
        some (State.commented { s with iIfStack := s.iIfStack - 1 } psz, [])
      else some (s.commented psz, [.underflow])) := by
  cases at_p : p.conditionals with
  | nil => exact absurd at_p (regular.endifs _ at_line)
  | cons c cs =>
    rw [at_p] at stacked
    have positive : s.iIfStack > 0 := by
      rw [stacked.depth]
      exact Nat.succ_pos _
    rw [if_pos positive]
    refine ⟨_, [], rfl, (names_nil at_line (by decide)).symm, commented_closes comment closes, ?_⟩
    rw [behind_of at_line, at_p, slots_of at_line (by decide)]
    exact stacked.pop.commented psz

theorem other_right (stacked : Stacked s p.conditionals supported) (comment : s.fComment = false)
    (closes : openBehind false psz = openBehind p.comment line)
    (at_line : p.directive line = some (word, argument)) (regular : LineRegular p line)
    (not_include : word ≠ szInclude) (not_if : ¬ szIf <+: word) (not_else : word ≠ szElse)
    (not_endif : word ≠ szEndif) :
    LineRight p supported line (some (s.commented psz, [])) := by
  have no_if : word ≠ szIf := by
    rintro rfl
    exact not_if List.prefix_rfl
  have no_ifdef : ¬ (word = szIfdef ∨ word = szIfndef) := by
    rintro (rfl | rfl)
    · exact not_if (by decide)
    · exact not_if (by decide)
  have slots : supportedBehind p supported line = supported := by
    rw [supportedBehind_of at_line, if_neg]
    rintro (⟨eq, _⟩ | ifdefs)
    · exact no_if eq
    · exact no_ifdef ifdefs
  refine ⟨_, [], rfl, (names_nil at_line not_include).symm, commented_closes comment closes, ?_⟩
  rw [behind_of at_line, slots, conditionalsBehind.eq_def, if_neg no_if, if_neg no_ifdef]
  by_cases is_elif : word = szElif
  · subst is_elif
    obtain ⟨c, cs, at_p, _⟩ := regular.elifs _ at_line
    rw [at_p] at stacked ⊢
    exact stacked.elifs.commented psz
  · rw [if_neg is_elif, if_neg not_else, if_neg not_endif]
    exact stacked.commented psz

theorem directive_right (stacked : Stacked s p.conditionals supported)
    (comment : s.fComment = false) (outside : p.comment = false)
    (at_line : p.directive line = some (psz.takeWhile wordChar, psz.dropWhile wordChar))
    (closes : openBehind false psz = openBehind p.comment line) (regular : LineRegular p line)
    (fits : LineFits env p supported line) :
    LineRight p supported line (directive env s line psz) := by
  have split := psz.takeWhile_append_dropWhile (p := wordChar)
  rw [directive_word]
  generalize at_word : psz.takeWhile wordChar = word at at_line split
  generalize at_argument : psz.dropWhile wordChar = argument at at_line split
  by_cases before_include : word <+: szInclude
  · rw [if_pos before_include]
    obtain rfl | ⟨rfl, rfl⟩ := fits.whole _ _ at_line szInclude List.mem_cons_self before_include
    · exact include_right stacked comment outside closes at_line split fits
    · obtain rfl : psz = [] := split.symm
      exact null_right stacked comment closes at_line
  · rw [if_neg before_include]
    have some_word : word ≠ [] := by
      rintro rfl
      exact before_include List.nil_prefix
    have not_include : word ≠ szInclude := by
      rintro rfl
      exact before_include List.prefix_rfl
    by_cases before_if : word <+: szIf
    · rw [if_pos before_if]
      obtain rfl := if_word before_if before_include
      exact if_right stacked comment closes at_line at_argument fits
    · rw [if_neg before_if]
      by_cases before_else : word <+: szElse
      · rw [if_pos before_else]
        obtain rfl | ⟨empty, _⟩ := fits.whole _ _ at_line szElse
          (List.mem_cons_of_mem _ List.mem_cons_self) before_else
        · exact else_right stacked comment closes at_line regular
        · exact absurd empty some_word
      · rw [if_neg before_else]
        by_cases before_endif : word <+: szEndif
        · rw [if_pos before_endif]
          obtain rfl | ⟨empty, _⟩ := fits.whole _ _ at_line szEndif
            (List.mem_cons_of_mem _ (List.mem_cons_of_mem _ List.mem_cons_self)) before_endif
          · exact endif_right stacked comment closes at_line regular
          · exact absurd empty some_word
        · rw [if_neg before_endif, if_neg (regular.elseifs _ _ at_line)]
          have unlike {key : List Char} (differs : ¬ word <+: key) : word ≠ key := by
            rintro rfl
            exact differs List.prefix_rfl
          by_cases is_if : szIf <+: word
          · rw [if_pos is_if]
            exact ifdef_right stacked comment closes at_line is_if (unlike before_if) not_include
              regular fits
          · rw [if_neg is_if]
            exact other_right stacked comment closes at_line regular not_include is_if
              (unlike before_else) (unlike before_endif)

end Directive

theorem quiet_right (stacked : Stacked s p.conditionals supported)
    (comment : s.fComment = p.comment) (at_line : p.directive line = none) :
    LineRight p supported line (some (s.commented (skipBlanks line), [])) := by
  refine .plain (stacked.commented _) ?_ ?_ ?_ ?_
  · show comments s.fComment _ = _
    rw [comments_eq, comment, openBehind_skipBlanks]
  · rw [Place.names, at_line]
    rfl
  · rw [Place.behind, at_line]
  · rw [supportedBehind, at_line]

theorem blanks_directive (rest : List Char) (short : rest.length < 2)
    (same : line.dropWhile blank = rest.dropWhile blank) {parts : List Char × List Char}
    (directed : directiveOf line = some parts) : parts = ([], []) := by
  have shorter := (rest.dropWhile_suffix blank).length_le
  rw [directiveOf, same] at directed
  split at directed
  · next psz hash =>
    rw [hash, List.length_cons] at shorter
    obtain rfl : psz = [] := List.length_eq_zero_iff.mp (by omega)
    exact (Option.some.inj directed).symm
  · cases directed

theorem line_right (stacked : Stacked s p.conditionals supported) (comment : s.fComment = p.comment)
    (regular : LineRegular p line) (fits : LineFits env p supported line) :
    LineRight p supported line (LangCpp.line env s line) := by
  rw [LangCpp.line, if_pos (show line.length < cchLineBuffer from regular.short)]
  cases outside : p.comment with
  | true =>
    have at_line : p.directive line = none := if_pos outside
    have quiet := quiet_right stacked comment at_line
    rw [outside] at comment
    split
    · next psz skipped =>
      rw [comment, if_pos rfl, ← skipped]
      exact quiet
    · exact quiet
  | false =>
    have at_line : p.directive line = directiveOf line :=
      if_neg (by rw [outside]; exact Bool.false_ne_true)
    have clear : s.fComment = false := comment.trans outside
    obtain same | ⟨ch, rest, skipped, is_blank, short, same⟩ := skipBlanks_cases line
    · split
      · next psz skipped =>
        rw [same] at skipped
        rw [clear, if_neg Bool.false_ne_true]
        refine directive_right stacked clear outside ?_ ?_ regular fits
        · rw [at_line, directiveOf, skipped]
          rfl
        · rw [openBehind_blanks, outside, ← openBehind_blanks false line, skipped]
          exact (openBehind_skip false ['#'] psz
            (List.forall_mem_singleton.mpr ⟨by decide, by decide⟩)).symm
      · next other =>
        refine quiet_right stacked comment ?_
        rw [at_line, directiveOf]
        split
        · next psz dropped => exact absurd (same.trans dropped) (other psz)
        · rfl
    · split
      · next psz hash =>
        rw [skipped] at hash
        cases hash
        cases is_blank
      · cases directed : p.directive line with
        | none => exact quiet_right stacked comment directed
        | some parts =>
          obtain rfl := blanks_directive rest short same (at_line.symm.trans directed)
          refine .plain (stacked.commented _) ?_ (names_nil directed (by decide)).symm ?_
            (slots_of directed (by decide))
          · show comments s.fComment _ = _
            rw [comments_eq, comment, openBehind_skipBlanks]
          · rw [behind_of directed]
            rfl

end Line

/-! ## The whole source -/

theorem skipLineEnd_one {ch : Char} {rest : List Char} (is_end : endOfLine ch = true)
    (other : ∀ rest', ch = '\r' → rest = '\n' :: rest' → False) :
    skipLineEnd (ch :: rest) = rest := by
  have ends : ch = '\n' ∨ ch = '\r' := by simpa [endOfLine] using is_end
  rcases ends with rfl | rfl
  · rfl
  · cases rest with
    | nil => rfl
    | cons next rest =>
      by_cases newline : next = '\n'
      · exact (other rest rfl (by rw [newline])).elim
      · rw [skipLineEnd]
        intro rest' eq
        exact newline (List.cons.inj eq).1

theorem splitLines_next (text : List Char) :
    splitLines text = (text.takeWhile fun ch => !endOfLine ch) ::
      (if (text.dropWhile fun ch => !endOfLine ch) = [] then []
        else splitLines (skipLineEnd (text.dropWhile fun ch => !endOfLine ch))) := by
  induction text using splitLines.induct with
  | case1 => rfl
  | case2 rest _ => rfl
  | case3 ch rest other is_end ih =>
    have stops : ¬ (!endOfLine ch) = true := by
      rw [is_end]
      exact Bool.false_ne_true
    rw [splitLines.eq_3 ch rest other, if_pos is_end, List.takeWhile_cons, if_neg stops,
      List.dropWhile_cons, if_neg stops, if_neg (List.cons_ne_nil _ _),
      skipLineEnd_one is_end other]
  | case4 ch rest other no_end empty ih =>
    rw [empty] at ih
    cases ih
  | case5 ch rest other no_end first others split ih =>
    have goes : (!endOfLine ch) = true := by
      rw [(Bool.not_eq_true _).mp no_end]
      rfl
    rw [splitLines.eq_3 ch rest other, if_neg no_end, List.takeWhile_cons, if_pos goes,
      List.dropWhile_cons, if_pos goes, ih]

theorem skipLineEnd_length (psz : List Char) : (skipLineEnd psz).length ≤ psz.length := by
  rw [skipLineEnd.eq_def]
  split
  · exact (Nat.le_succ _).trans (Nat.le_succ _)
  · exact Nat.le_succ _
  · exact Nat.le_succ _
  · exact le_rfl

theorem next_shorter {text : List Char} (more : text ≠ []) :
    (skipLineEnd (text.dropWhile fun ch => !endOfLine ch)).length < text.length := by
  cases text with
  | nil => exact absurd rfl more
  | cons ch rest =>
    have behind := skipLineEnd_length (rest.dropWhile fun ch => !endOfLine ch)
    have dropped := (rest.dropWhile_suffix fun ch => !endOfLine ch).length_le
    cases is_end : endOfLine ch with
    | false =>
      have goes : (!endOfLine ch) = true := by rw [is_end]; rfl
      rw [List.dropWhile_cons, if_pos goes, List.length_cons]
      omega
    | true =>
      have stops : ¬ (!endOfLine ch) = true := by
        rw [is_end]
        exact Bool.false_ne_true
      rw [List.dropWhile_cons, if_neg stops, List.length_cons]
      by_cases pair : ∃ rest', ch = '\r' ∧ rest = '\n' :: rest'
      · obtain ⟨rest', rfl, rfl⟩ := pair
        exact Nat.lt_succ_of_lt (Nat.lt_succ_self _)
      · rw [skipLineEnd_one is_end fun rest' first second => pair ⟨rest', first, second⟩]
        exact Nat.lt_succ_self _

theorem includes_end (p : Place) : p.includes [[]] = [] := by
  have none : p.directive [] = none := by
    rw [Place.directive]
    split <;> rfl
  rw [Place.includes, Place.includes, Place.names, none]
  rfl

section Loop

variable {env : Env} {pvFile : List Char} {s : State} {p : Place} {supported : ℕ → Bool}

/-- What is shown of a text from a place on. -/
def Reads (env : Env) (pvFile : List Char) (lines : ℕ) (pv : Option (List Char))
    (text : List Char) : Prop :=
  ∀ (s : State) (p : Place) (supported : ℕ → Bool), Stacked s p.conditionals supported →
    s.fComment = p.comment → Regular p (splitLines text) →
    Fits env p supported (splitLines text) →
    ∃ events, lineLoop env pvFile lines pv s = some events ∧
      events.filterMap Event.name = p.includes (splitLines text)

theorem lineLoop_end (lines : ℕ) (s : State) :
    lineLoop env pvFile (lines + 1) (some []) s = some [] := rfl

theorem reads_line {lines : ℕ} {pv : Option (List Char)} {text : List Char}
    (here : pv.getD pvFile = text)
    (moves : pv ≠ some (skipLineEnd (text.dropWhile fun ch => !endOfLine ch)))
    (follows : Reads env pvFile (lines + 1)
      (some (skipLineEnd (text.dropWhile fun ch => !endOfLine ch)))
      (skipLineEnd (text.dropWhile fun ch => !endOfLine ch))) :
    Reads env pvFile (lines + 2) pv text := by
  intro s p supported stacked comment regular fits
  rw [splitLines_next text] at regular fits ⊢
  obtain ⟨regular_line, regular_rest⟩ := regular
  obtain ⟨fits_line, fits_rest⟩ := fits
  obtain ⟨s', events, at_line, names, comment', stacked'⟩ :=
    line_right stacked comment regular_line fits_line
  have got : textbufferGetNextLine pvFile pv =
      (some (text.takeWhile fun ch => !endOfLine ch),
        skipLineEnd (text.dropWhile fun ch => !endOfLine ch)) := by
    rw [textbufferGetNextLine, here]
    exact Prod.ext (if_neg moves) rfl
  rw [lineLoop, got]
  dsimp only
  rw [at_line]
  dsimp only
  by_cases last : (text.dropWhile fun ch => !endOfLine ch) = []
  · rw [last, if_pos rfl]
    show ∃ all, (lineLoop env pvFile (lines + 1) (some []) s').map _ = some all ∧ _
    rw [lineLoop_end]
    refine ⟨events, by rw [Option.map_some, List.append_nil], ?_⟩
    rw [names, Place.includes, Place.includes, List.append_nil]
  · rw [if_neg last] at regular_rest fits_rest ⊢
    obtain ⟨others, looped, others_names⟩ :=
      follows s' _ _ stacked' comment' regular_rest fits_rest
    refine ⟨events ++ others, by rw [looped, Option.map_some], ?_⟩
    rw [List.filterMap_append, names, others_names, Place.includes]

theorem reads_rest (lines : ℕ) (text : List Char) (enough : text.length < lines) :
    Reads env pvFile lines (some text) text := by
  induction lines generalizing text with
  | zero => omega
  | succ lines ih =>
    by_cases past : text = []
    · subst past
      intro s p supported _ _ _ _
      exact ⟨[], lineLoop_end lines s, (includes_end p).symm⟩
    · have shorter := next_shorter past
      obtain ⟨lines, rfl⟩ := Nat.exists_eq_add_one_of_ne_zero (by omega : lines ≠ 0)
      refine reads_line rfl ?_ (ih _ (by omega))
      intro stays
      rw [← Option.some.inj stays] at shorter
      omega

end Loop

/-- Every file is found in the directory of the source. -/
def besides : Env where
  szCurDir := ['c', ':', '\\', 's', '\\']
  aiSlashes := fun _ => 2
  cSlashes := 1
  szSrcDir := ['c', ':', '\\', 's', 'r', 'c']
  pszInclude := none
  pszIncludeEnv := none
  exist := fun _ => true
  fExcludeAll := false
  excluded := fun _ => false

def unset (_ : ℕ) : IfStackEntry := ⟨false, false, true⟩

def szIncludeA : List Char :=
  ['#', 'i', 'n', 'c', 'l', 'u', 'd', 'e', ' ', '"', 'a', '.', 'h', '"']

section Checks

variable {env : Env} {p : Place} {supported : ℕ → Bool} {line : List Char}
  {word argument : List Char}

theorem LineRegular.of (at_line : p.directive line = some (word, argument))
    (short : line.length < 4096) (text : '\x00' ∉ line)
    (not_else : word ≠ szElse) (not_elif : word ≠ szElif)
    (endifs : word = szEndif → p.conditionals ≠ [])
    (ifs : szIf <+: word → word = szIf ∨ word = szIfdef ∨ word = szIfndef)
    (not_elseif : ¬ szElseif <+: word) : LineRegular p line where
  short := short
  text := text
  elses _ same := absurd (Prod.mk.inj (Option.some.inj (at_line.symm.trans same))).1 not_else
  elifs _ same := absurd (Prod.mk.inj (Option.some.inj (at_line.symm.trans same))).1 not_elif
  endifs _ same := endifs (Prod.mk.inj (Option.some.inj (at_line.symm.trans same))).1
  ifs _ _ same := by
    rw [at_line] at same
    cases same
    exact ifs
  elseifs _ _ same := by
    rw [at_line] at same
    cases same
    exact not_elseif

theorem LineFits.of (at_line : p.directive line = some (word, argument))
    (whole : ∀ key ∈ [szInclude, szElse, szEndif], word <+: key →
      word = key ∨ word = [] ∧ argument = [])
    (room : p.conditionals.length < 255)
    (branch : word = szInclude → p.excluded = toggled p supported)
    (named : word = szInclude → IncludeFits env line argument) :
    LineFits env p supported line where
  whole _ _ same := by
    rw [at_line] at same
    cases same
    exact whole
  room _ _ _ _ := room
  branch _ same := branch (Prod.mk.inj (Option.some.inj (at_line.symm.trans same))).1
  named _ same _ := by
    rw [at_line] at same
    cases same
    exact named rfl

end Checks

/-- An include in an `#ifdef`. -/
def ifdefText : List Char :=
  ['#', 'i', 'f', 'd', 'e', 'f', ' ', 'X', '\n'] ++ szIncludeA ++
    ['\n', '#', 'e', 'n', 'd', 'i', 'f']

theorem ifdefText_lines : splitLines ifdefText =
    [['#', 'i', 'f', 'd', 'e', 'f', ' ', 'X'], szIncludeA, ['#', 'e', 'n', 'd', 'i', 'f']] := by
  decide +kernel

theorem szIncludeA_fits : IncludeFits besides szIncludeA [' ', '"', 'a', '.', 'h', '"'] :=
  .inr ⟨true, ['a', '.', 'h'], [], by decide, by decide, by decide, by decide, by decide +kernel,
    by decide +kernel⟩

theorem ifdefText_regular : Regular .start (splitLines ifdefText) := by
  rw [ifdefText_lines]
  refine ⟨?_, ?_, ?_, trivial⟩
  · exact .of rfl (by decide) (by decide) (by decide) (by decide) (by decide) (by decide)
      (by decide)
  · exact .of rfl (by decide) (by decide) (by decide) (by decide) (by decide) (by decide)
      (by decide)
  · exact .of rfl (by decide) (by decide) (by decide) (by decide) (fun _ => List.cons_ne_nil _ _)
      (by decide) (by decide)

theorem ifdefText_fits :
    Fits besides .start (fun n => (unset n).fSupported) (splitLines ifdefText) := by
  rw [ifdefText_lines]
  refine ⟨?_, ?_, ?_, trivial⟩
  · exact .of rfl (by decide) (by decide) (by decide) (fun eq => by cases eq)
  · exact .of rfl (by decide) (by decide) (fun _ => rfl) fun _ => szIncludeA_fits
  · exact .of rfl (by decide) (by decide) (by decide) (fun eq => by cases eq)

/-- An include behind an `#if 0`. -/
def excludedText : List Char :=
  ['#', 'i', 'f', ' ', '0', '\n'] ++ szIncludeA ++ ['\n', '#', 'e', 'n', 'd', 'i', 'f']

theorem excludedText_lines : splitLines excludedText =
    [['#', 'i', 'f', ' ', '0'], szIncludeA, ['#', 'e', 'n', 'd', 'i', 'f']] := by
  decide +kernel

theorem excludedText_regular : Regular .start (splitLines excludedText) := by
  rw [excludedText_lines]
  refine ⟨?_, ?_, ?_, trivial⟩
  · exact .of rfl (by decide) (by decide) (by decide) (by decide) (by decide) (by decide)
      (by decide)
  · exact .of rfl (by decide) (by decide) (by decide) (by decide) (by decide) (by decide)
      (by decide)
  · exact .of rfl (by decide) (by decide) (by decide) (by decide) (fun _ => List.cons_ne_nil _ _)
      (by decide) (by decide)

theorem excludedText_reads :
    (langC_CPP besides unset excludedText).map (List.filterMap Event.name) =
      some [['a', '.', 'h']] := by
  decide +kernel

end Odin32.LangCpp
