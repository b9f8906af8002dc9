import Mathlib.Data.List.Nodup
import Mathlib.Logic.Function.Basic

/-! # Singly linked lists

Cells at addresses, each with the address of the next one. A head stands for the list of
the addresses reached from it; a queue has the address of its last cell beside it. -/

set_option autoImplicit false

namespace Odin32.LinkedList

variable {α β : Type} (next : β → Option α)

/-- `cells` are the addresses reached from `head` over the links. -/
def Chain (heap : α → Option β) : Option α → List α → Prop
  | head, [] => head = none
  | head, a :: rest => head = some a ∧ ∃ cell, heap a = some cell ∧ Chain heap (next cell) rest

variable {next} {heap heap' : α → Option β} {head : Option α} {cells : List α}

theorem Chain.head_eq (chain : Chain next heap head cells) : head = cells.head? := by
  cases cells with
  | nil => exact chain
  | cons a rest => exact chain.1

theorem Chain.live (chain : Chain next heap head cells) {a : α} (mem : a ∈ cells) :
    ∃ cell, heap a = some cell := by
  induction cells generalizing head with
  | nil => cases mem
  | cons b rest ih =>
    obtain ⟨-, cell, here, tail⟩ := chain
    rcases List.mem_cons.mp mem with rfl | later
    · exact ⟨cell, here⟩
    · exact ih tail later

/-- Only the cells of the list matter. -/
theorem Chain.frame (chain : Chain next heap head cells)
    (same : ∀ a ∈ cells, heap' a = heap a) : Chain next heap' head cells := by
  induction cells generalizing head with
  | nil => exact chain
  | cons a rest ih =>
    obtain ⟨eq, cell, here, tail⟩ := chain
    refine ⟨eq, cell, ?_, ih tail fun b mem => same b (List.mem_cons_of_mem a mem)⟩
    rw [same a (List.mem_cons_self ..), here]

/-- Only the links of the cells of the list matter. -/
theorem Chain.congr (chain : Chain next heap head cells)
    (same : ∀ a ∈ cells, (heap' a).map next = (heap a).map next) :
    Chain next heap' head cells := by
  induction cells generalizing head with
  | nil => exact chain
  | cons a rest ih =>
    obtain ⟨eq, cell, here, tail⟩ := chain
    have link := same a (List.mem_cons_self ..)
    rw [here, Option.map_some] at link
    obtain ⟨cell', here', link'⟩ := Option.map_eq_some_iff.mp link
    refine ⟨eq, cell', here', ?_⟩
    rw [link']
    exact ih tail fun b mem => same b (List.mem_cons_of_mem a mem)

/-- The links determine the list. -/
theorem Chain.unique {cells' : List α} (chain : Chain next heap head cells)
    (chain' : Chain next heap head cells') : cells = cells' := by
  induction cells generalizing head cells' with
  | nil =>
    cases cells' with
    | nil => rfl
    | cons b rest' => exact absurd (chain.symm.trans chain'.1) (by simp)
  | cons a rest ih =>
    cases cells' with
    | nil => exact absurd (chain'.symm.trans chain.1) (by simp)
    | cons b rest' =>
      obtain ⟨eq, cell, here, tail⟩ := chain
      obtain ⟨eq', cell', here', tail'⟩ := chain'
      obtain rfl : a = b := Option.some.inj (eq.symm.trans eq')
      obtain rfl : cell = cell' := Option.some.inj (here.symm.trans here')
      rw [ih tail tail']

/-- A list without its first cell, whether that is kept or freed. -/
theorem Chain.pop {a : α} {rest : List α} {cell : β}
    (chain : Chain next heap head (a :: rest)) (here : heap a = some cell) :
    Chain next heap (next cell) rest := by
  obtain ⟨-, cell', here', tail⟩ := chain
  obtain rfl : cell = cell' := Option.some.inj (here.symm.trans here')
  exact tail

/-- The part of a list from one of its cells on. -/
theorem Chain.drop {l₁ l₂ : List α} {a : α} (chain : Chain next heap head (l₁ ++ a :: l₂)) :
    Chain next heap (some a) (a :: l₂) := by
  induction l₁ generalizing head with
  | nil =>
    obtain ⟨rfl, here⟩ := chain
    exact ⟨rfl, here⟩
  | cons b l₁ ih =>
    obtain ⟨-, cell, -, rest⟩ := chain
    exact ih rest

/-- No cell is met twice on the way to the end. -/
theorem Chain.nodup (chain : Chain next heap head cells) : cells.Nodup := by
  induction cells generalizing head with
  | nil => exact List.nodup_nil
  | cons a rest ih =>
    obtain ⟨rfl, cell, here, tail⟩ := chain
    refine List.nodup_cons.mpr ⟨?_, ih tail⟩
    intro mem
    obtain ⟨l₁, l₂, rfl⟩ := List.append_of_mem mem
    have again : a :: l₂ = a :: (l₁ ++ a :: l₂) := tail.drop.unique ⟨rfl, cell, here, tail⟩
    have lengths := congrArg List.length again
    simp only [List.length_cons, List.length_append] at lengths
    omega

/-- The cells before the last one of `l₁` keep their links, and the last one leads on. -/
theorem Chain.rejoin {l₁ l₂ l₂' : List α} {q : α} (chain : Chain next heap head (l₁ ++ q :: l₂))
    (same : ∀ b ∈ l₁, (heap' b).map next = (heap b).map next) {link : Option α}
    (joined : (heap' q).map next = some link) (tail : Chain next heap' link l₂') :
    Chain next heap' head (l₁ ++ q :: l₂') := by
  induction l₁ generalizing head with
  | nil =>
    obtain ⟨cell, here, rfl⟩ := Option.map_eq_some_iff.mp joined
    exact ⟨chain.1, cell, here, tail⟩
  | cons b l₁ ih =>
    obtain ⟨eq, cell, here, rest⟩ := chain
    have kept := same b (List.mem_cons_self ..)
    rw [here, Option.map_some] at kept
    obtain ⟨cell', here', kept'⟩ := Option.map_eq_some_iff.mp kept
    refine ⟨eq, cell', here', ?_⟩
    rw [kept']
    exact ih rest fun c mem => same c (List.mem_cons_of_mem b mem)

/-- The part of a list behind a first part. -/
theorem Chain.rest {l₁ l₂ : List α} (chain : Chain next heap head (l₁ ++ l₂)) :
    Chain next heap l₂.head? l₂ := by
  cases l₂ with
  | nil => rfl
  | cons a l₂ => exact chain.drop

section Middle

variable [DecidableEq α] {l₁ l₂ : List α} {a : α} {cell : β}

/-- The last cell of the first part leads to another rest. -/
theorem Chain.rejoinLast {l₂' : List α} {link : Option α}
    (chain : Chain next heap head (l₁ ++ l₂)) (cons : l₁ ≠ [])
    (links : ∀ b ∈ l₁, (heap' b).map next =
      if l₁.getLast? = some b then some link else (heap b).map next)
    (tail : Chain next heap' link l₂') : Chain next heap' head (l₁ ++ l₂') := by
  rcases List.eq_nil_or_concat l₁ with rfl | ⟨l₁, q, rfl⟩
  · exact absurd rfl cons
  · simp only [List.concat_eq_append, List.append_assoc, List.singleton_append] at chain links ⊢
    have qMem : q ∈ l₁ ++ [q] := by simp
    have lastEq : (l₁ ++ [q]).getLast? = some q := List.getLast?_concat
    refine chain.rejoin ?_ (by rw [links q qMem, if_pos lastEq]) tail
    intro b mem
    have ne : (l₁ ++ [q]).getLast? ≠ some b := by
      rw [lastEq]
      rintro ⟨⟩
      have both := (List.nodup_append.mp chain.nodup).2.2
      exact both q mem q (List.mem_cons_self ..) rfl
    rw [links b (List.mem_append_left _ mem), if_neg ne]

/-- Behind the first part the links stay. -/
theorem Chain.restKept {link : Option α} (chain : Chain next heap head (l₁ ++ l₂))
    (links : ∀ b ∈ l₂, (heap' b).map next =
      if l₁.getLast? = some b then some link else (heap b).map next) :
    Chain next heap' l₂.head? l₂ := by
  have both := (List.nodup_append.mp chain.nodup).2.2
  refine chain.rest.congr fun b mem => ?_
  have ne : l₁.getLast? ≠ some b := fun last => both b (List.mem_of_getLast? last) b mem rfl
  rw [links b mem, if_neg ne]

omit [DecidableEq α] in
theorem Chain.head_ne (chain : Chain next heap head (l₁ ++ a :: l₂)) (cons : l₁ ≠ []) :
    head ≠ some a := by
  have both := (List.nodup_append.mp chain.nodup).2.2
  cases l₁ with
  | nil => exact absurd rfl cons
  | cons b l₁ =>
    rw [chain.head_eq]
    rintro ⟨⟩
    exact both a (List.mem_cons_self ..) a (List.mem_cons_self ..) rfl

/-- A cell goes; the one before it leads where it led. -/
theorem Chain.remove (chain : Chain next heap head (l₁ ++ a :: l₂)) (here : heap a = some cell)
    (links : ∀ b ∈ l₁ ++ l₂, (heap' b).map next =
      if l₁.getLast? = some b then some (next cell) else (heap b).map next) :
    Chain next heap' (if head = some a then next cell else head) (l₁ ++ l₂) := by
  have split : Chain next heap head ((l₁ ++ [a]) ++ l₂) := by simpa using chain
  have tail : Chain next heap' (next cell) l₂ := by
    have led : next cell = l₂.head? := (chain.drop.pop here).head_eq
    have both := (List.nodup_append.mp chain.nodup).2.2
    rw [led]
    refine split.rest.congr fun b mem => ?_
    have ne : l₁.getLast? ≠ some b :=
      fun last => both b (List.mem_of_getLast? last) b (List.mem_cons_of_mem a mem) rfl
    rw [links b (List.mem_append_right l₁ mem), if_neg ne]
  by_cases cons : l₁ = []
  · subst cons
    rw [if_pos chain.1]
    exact tail
  · rw [if_neg (chain.head_ne cons)]
    exact chain.rejoinLast cons (fun b mem => links b (List.mem_append_left l₂ mem)) tail

/-- A cell comes; the one before it leads to it. -/
theorem Chain.insert (l₁ l₂ : List α) (chain : Chain next heap head (l₁ ++ l₂))
    (new : (heap' a).map next = some l₂.head?)
    (links : ∀ b ∈ l₁ ++ l₂, (heap' b).map next =
      if l₁.getLast? = some b then some (some a) else (heap b).map next) :
    Chain next heap' (if l₁ = [] then some a else head) (l₁ ++ a :: l₂) := by
  have tail : Chain next heap' (some a) (a :: l₂) := by
    obtain ⟨cell, here, link⟩ := Option.map_eq_some_iff.mp new
    refine ⟨rfl, cell, here, ?_⟩
    rw [link]
    exact chain.restKept fun b mem => links b (List.mem_append_right l₁ mem)
  by_cases cons : l₁ = []
  · subst cons
    exact tail
  · rw [if_neg cons]
    exact chain.rejoinLast cons (fun b mem => links b (List.mem_append_left l₂ mem)) tail

end Middle

section Seek

/-- What a walk over links can run into. -/
inductive Trap where
  | dangling
  | endless

variable (next heap) in
/-- A walk that stands still before the first cell after `cur` that `stop` holds for, or at
the last cell. -/
def seek (stop : α → β → Bool) : ℕ → α → Except Trap (α × Option α)
  | 0, _ => .error .endless
  | fuel + 1, cur =>
    match heap cur with
    | none => .error .dangling
    | some cell =>
      match next cell with
      | none => .ok (cur, none)
      | some a =>
        match heap a with
        | none => .error .dangling
        | some cell' => if stop a cell' then .ok (cur, some a) else seek stop fuel a

/-- On a list the walk ends, with the cells before the one it found behind it. -/
theorem Chain.seek {fuel : ℕ} {cur : α} {rest : List α}
    (chain : Chain next heap (some cur) (cur :: rest)) (stop : α → β → Bool)
    (enough : rest.length < fuel) :
    ∃ l₁ p l₂, cur :: rest = l₁ ++ p :: l₂ ∧
      LinkedList.seek next heap stop fuel cur = .ok (p, l₂.head?) ∧
      (∀ a cell, a ∈ (l₁ ++ [p]).tail → heap a = some cell → stop a cell = false) ∧
      ∀ a cell, l₂.head? = some a → heap a = some cell → stop a cell = true := by
  induction rest generalizing cur fuel with
  | nil =>
    obtain ⟨-, cell, here, stopped⟩ := chain
    obtain ⟨fuel, rfl⟩ := Nat.exists_eq_succ_of_ne_zero (Nat.ne_of_gt enough)
    refine ⟨[], cur, [], rfl, ?_, ?_, ?_⟩
    · simp only [LinkedList.seek, here]
      rw [show next cell = none from stopped]
      rfl
    · intro a cell' mem
      cases mem
    · intro a cell' head
      cases head
  | cons b rest ih =>
    obtain ⟨-, cell, here, link, cell', there, tail⟩ := chain
    obtain ⟨fuel, rfl⟩ := Nat.exists_eq_succ_of_ne_zero (Nat.ne_of_gt (Nat.zero_lt_of_lt enough))
    by_cases stops : stop b cell' = true
    · refine ⟨[], cur, b :: rest, rfl, ?_, ?_, ?_⟩
      · simp only [LinkedList.seek, here, link, there, stops]
        rfl
      · intro a cell'' mem
        cases mem
      · intro a cell'' head eq
        cases head
        cases there.symm.trans eq
        exact stops
    · obtain ⟨l₁, p, l₂, split, found, before, after⟩ :=
        ih ⟨rfl, cell', there, tail⟩ (Nat.lt_of_succ_lt_succ enough)
      refine ⟨cur :: l₁, p, l₂, by rw [split]; rfl, ?_, ?_, after⟩
      · simp only [LinkedList.seek, here, link, there, stops]
        exact found
      · intro a cell'' mem eq
        rcases l₁ with _ | ⟨c, l₁⟩
        · obtain ⟨rfl, -⟩ := List.cons.inj split
          obtain rfl : a = b := by simpa using mem
          cases there.symm.trans eq
          exact Bool.eq_false_iff.mpr stops
        · obtain ⟨rfl, -⟩ := List.cons.inj split
          rcases List.mem_cons.mp (show a ∈ b :: (l₁ ++ [p]) from mem) with rfl | later
          · cases there.symm.trans eq
            exact Bool.eq_false_iff.mpr stops
          · exact before a cell'' later eq

end Seek

section Update

variable [DecidableEq α]

theorem Chain.update_of_notMem (chain : Chain next heap head cells) {a : α} (off : a ∉ cells)
    (value : Option β) : Chain next (Function.update heap a value) head cells := by
  apply chain.frame
  intro b mem
  rw [Function.update_of_ne]
  rintro rfl
  exact off mem

/-- A new cell behind the last one. -/
theorem Chain.snoc {a last : α} {cell moved : β} (chain : Chain next heap head cells)
    (nodup : cells.Nodup) (off : a ∉ cells) (isLast : cells.getLast? = some last)
    (link : next moved = some a) (stop : next cell = none) :
    Chain next (Function.update (Function.update heap a (some cell)) last (some moved)) head
      (cells ++ [a]) := by
  induction cells generalizing head with
  | nil => cases isLast
  | cons b rest ih =>
    obtain ⟨eq, first, here, tail⟩ := chain
    obtain ⟨apart, nodup'⟩ := List.nodup_cons.mp nodup
    have ne : a ≠ b := fun same => off (same ▸ List.mem_cons_self ..)
    have off' : a ∉ rest := fun mem => off (List.mem_cons_of_mem b mem)
    cases rest with
    | nil =>
      obtain rfl : b = last := by simpa using isLast
      refine ⟨eq, moved, Function.update_self .., link, cell, ?_, stop⟩
      rw [Function.update_of_ne ne, Function.update_self]
    | cons c rest =>
      have isLast' : (c :: rest).getLast? = some last := by
        rw [← isLast]
        rfl
      have lastMem : last ∈ c :: rest := List.mem_of_getLast? isLast'
      have notLast : b ≠ last := fun same => apart (same ▸ lastMem)
      refine ⟨eq, first, ?_, ih tail nodup' off' isLast'⟩
      rw [Function.update_of_ne notLast, Function.update_of_ne ne.symm, here]

/-- One cell of the list gets another link. -/
theorem Chain.relink {l₁ l₂ l₂' : List α} {p : α} {moved : β}
    (chain : Chain next heap head (l₁ ++ p :: l₂)) (off : p ∉ l₁) (off' : p ∉ l₂')
    (tail : Chain next heap (next moved) l₂') :
    Chain next (Function.update heap p (some moved)) head (l₁ ++ p :: l₂') := by
  induction l₁ generalizing head with
  | nil => exact ⟨chain.1, moved, Function.update_self .., tail.update_of_notMem off' _⟩
  | cons b l₁ ih =>
    obtain ⟨eq, cell, here, rest⟩ := chain
    have apart : b ≠ p := fun same => off (same ▸ List.mem_cons_self ..)
    refine ⟨eq, cell, ?_, ih rest fun mem => off (List.mem_cons_of_mem b mem)⟩
    rw [Function.update_of_ne apart, here]

end Update

end Odin32.LinkedList
