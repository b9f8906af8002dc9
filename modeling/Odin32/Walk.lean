import Mathlib.Data.Nat.Notation
import Mathlib.Order.Preorder.Finite
import Mathlib.Logic.Relation
import Mathlib.Logic.Function.Iterate

/-! # Walks along links

The walk from a place over a partial successor function. It ends when the places it can
go on from are finitely many and none of them is reached from itself again. -/

set_option autoImplicit false

namespace Odin32.Walk

variable {α : Type} (next : α → Option α)

/-- One link further. -/
def Step (a b : α) : Prop := next a = some b

/-- The places of a walk up to its end, with a bound on its length. -/
def path : ℕ → α → Option (List α)
  | 0, _ => none
  | fuel + 1, a =>
    match next a with
    | none => some [a]
    | some b => (path fuel b).map (a :: ·)

variable {next} {a b : α} {l : List α} {fuel : ℕ}

theorem path_end (stop : next a = none) : path next (fuel + 1) a = some [a] := by
  simp [path, stop]

theorem path_link (link : next a = some b) :
    path next (fuel + 1) a = (path next fuel b).map (a :: ·) := by
  simp [path, link]

/-- The shape of a walk that ended. -/
theorem path_cases (walked : path next (fuel + 1) a = some l) :
    (next a = none ∧ l = [a]) ∨
    ∃ b rest, next a = some b ∧ path next fuel b = some rest ∧ l = a :: rest := by
  cases link : next a with
  | none =>
    rw [path_end link] at walked
    exact Or.inl ⟨rfl, (Option.some.inj walked).symm⟩
  | some b =>
    rw [path_link link] at walked
    obtain ⟨rest, walked', eq⟩ := Option.map_eq_some_iff.mp walked
    exact Or.inr ⟨b, rest, rfl, walked', eq.symm⟩

theorem path_head (walked : path next fuel a = some l) : a ∈ l := by
  cases fuel with
  | zero => cases walked
  | succ fuel =>
    rcases path_cases walked with ⟨-, rfl⟩ | ⟨b, rest, -, -, rfl⟩ <;> exact List.mem_cons_self ..

/-- A walk that ended met every place that can be reached. -/
theorem mem_path (walked : path next fuel a = some l)
    (reached : Relation.ReflTransGen (Step next) a b) : b ∈ l := by
  induction fuel generalizing a l with
  | zero => cases walked
  | succ fuel ih =>
    rcases Relation.ReflTransGen.cases_head reached with rfl | ⟨c, link, reached'⟩
    · exact path_head walked
    · rcases path_cases walked with ⟨stop, -⟩ | ⟨b', rest, link', walked', rfl⟩
      · exact absurd (stop.symm.trans link) (by simp)
      · obtain rfl : b' = c := Option.some.inj (link'.symm.trans link)
        exact List.mem_cons_of_mem _ (ih walked' reached')

theorem reached_of_mem_path (walked : path next fuel a = some l) (mem : b ∈ l) :
    Relation.ReflTransGen (Step next) a b := by
  induction fuel generalizing a l with
  | zero => cases walked
  | succ fuel ih =>
    rcases path_cases walked with ⟨-, rfl⟩ | ⟨c, rest, link, walked', rfl⟩
    · rw [List.mem_singleton.mp mem]
    · rcases List.mem_cons.mp mem with rfl | later
      · exact Relation.ReflTransGen.refl
      · exact Relation.ReflTransGen.head link (ih walked' later)

/-- The walk from a later place is the rest of the walk. -/
theorem path_of_link (walked : path next fuel a = some l) (link : next a = some b) :
    ∃ fuel' rest, fuel = fuel' + 1 ∧ path next fuel' b = some rest ∧ l = a :: rest := by
  cases fuel with
  | zero => cases walked
  | succ fuel =>
    rcases path_cases walked with ⟨stop, -⟩ | ⟨c, rest, link', walked', rfl⟩
    · exact absurd (stop.symm.trans link) (by simp)
    · obtain rfl : c = b := Option.some.inj (link'.symm.trans link)
      exact ⟨fuel, rest, rfl, walked', rfl⟩

/-- The length of the walk that is left goes down along the links. -/
theorem path_shrinks {c : α} (walked : path next fuel a = some l)
    (further : Relation.TransGen (Step next) a c) :
    ∃ fuel' l', path next fuel' c = some l' ∧ l'.length < l.length := by
  induction further with
  | single link =>
    obtain ⟨fuel', rest, -, walked', rfl⟩ := path_of_link walked link
    exact ⟨fuel', rest, walked', by simp⟩
  | tail _ link ih =>
    obtain ⟨fuel', l', walked', shorter⟩ := ih
    obtain ⟨fuel'', rest, -, walked'', rfl⟩ := path_of_link walked' link
    exact ⟨fuel'', rest, walked'', by simp at shorter; omega⟩

/-- Two bounds that suffice give one walk. -/
theorem path_unique {fuel' : ℕ} {l' : List α} (walked : path next fuel a = some l)
    (walked' : path next fuel' a = some l') : l = l' := by
  induction fuel generalizing a l fuel' l' with
  | zero => cases walked
  | succ fuel ih =>
    cases fuel' with
    | zero => cases walked'
    | succ fuel' =>
      rcases path_cases walked with ⟨stop, rfl⟩ | ⟨b, rest, link, more, rfl⟩
      · rcases path_cases walked' with ⟨-, rfl⟩ | ⟨b, rest, link, -, -⟩
        · rfl
        · exact absurd (stop.symm.trans link) (by simp)
      · rcases path_cases walked' with ⟨stop, -⟩ | ⟨b', rest', link', more', rfl⟩
        · exact absurd (stop.symm.trans link) (by simp)
        · obtain rfl : b = b' := Option.some.inj (link.symm.trans link')
          rw [ih more more']

theorem acyclic_of_path (walked : path next fuel a = some l)
    (reached : Relation.ReflTransGen (Step next) a b) :
    ¬ Relation.TransGen (Step next) b b := by
  intro cycle
  have rest : ∃ fuel' l', path next fuel' b = some l' := by
    rcases Relation.reflTransGen_iff_eq_or_transGen.mp reached with rfl | further
    · exact ⟨fuel, l, walked⟩
    · obtain ⟨fuel', l', walked', -⟩ := path_shrinks walked further
      exact ⟨fuel', l', walked'⟩
  obtain ⟨fuel', l', walked'⟩ := rest
  obtain ⟨fuel'', l'', walked'', shorter⟩ := path_shrinks walked' cycle
  rw [path_unique walked' walked''] at shorter
  exact Nat.lt_irrefl _ shorter

theorem path_nodup (walked : path next fuel a = some l) : l.Nodup := by
  induction fuel generalizing a l with
  | zero => cases walked
  | succ fuel ih =>
    have whole := walked
    rcases path_cases walked with ⟨-, rfl⟩ | ⟨b, rest, link, walked', rfl⟩
    · exact List.nodup_singleton a
    · refine List.nodup_cons.mpr ⟨?_, ih walked'⟩
      intro again
      exact acyclic_of_path whole Relation.ReflTransGen.refl
        (Relation.TransGen.head' link (reached_of_mem_path walked' again))

/-- The places of a walk over a total successor function, by number of links. -/
theorem path_iterate {f : α → α} (follows : ∀ c d, next c = some d → d = f c)
    (walked : path next fuel a = some l) :
    l = (List.range l.length).map fun i => f^[i] a := by
  induction fuel generalizing a l with
  | zero => cases walked
  | succ fuel ih =>
    rcases path_cases walked with ⟨-, rfl⟩ | ⟨b, rest, link, walked', rfl⟩
    · rfl
    · obtain rfl := follows a b link
      rw [List.length_cons, List.range_succ_eq_map, List.map_cons, List.map_map]
      have shifted := ih walked'
      rw [List.cons_eq_cons]
      exact ⟨rfl, shifted⟩

/-- Where the walk stands after `n` links. -/
def after (next : α → Option α) (a : α) : ℕ → Option α
  | 0 => some a
  | n + 1 => (after next a n).bind next

theorem reached_after {n m : ℕ} {c : α} (here : after next a n = some b)
    (there : after next a (n + m) = some c) : Relation.ReflTransGen (Step next) b c := by
  induction m generalizing c with
  | zero =>
    obtain rfl : b = c := Option.some.inj (here.symm.trans there)
    exact Relation.ReflTransGen.refl
  | succ m ih =>
    obtain ⟨d, before, link⟩ := Option.bind_eq_some_iff.mp there
    exact (ih before).tail link

theorem exists_path_of_after {n : ℕ} (here : after next a n = some b) (stop : next b = none) :
    ∃ l, path next (n + 1) a = some l := by
  have whole : ∀ m, ∀ c, ∀ k, after next a m = some c → path next k c ≠ none →
      path next (m + k) a ≠ none := by
    intro m
    induction m with
    | zero =>
      intro c k at0 walked
      obtain rfl : a = c := Option.some.inj at0
      rwa [Nat.zero_add]
    | succ m ih =>
      intro c k atm walked
      obtain ⟨d, before, link⟩ := Option.bind_eq_some_iff.mp atm
      rw [Nat.add_right_comm, Nat.add_assoc]
      apply ih d (k + 1) before
      rw [path_link link]
      simpa using walked
  have walked := whole n b 1 here (by simp [path_end stop])
  exact Option.ne_none_iff_exists'.mp walked

/-- Finitely many places and no way back: the walk ends. -/
theorem exists_path
    (finite : {b | Relation.ReflTransGen (Step next) a b ∧ next b ≠ none}.Finite)
    (acyclic : ∀ b, Relation.ReflTransGen (Step next) a b →
      ¬ Relation.TransGen (Step next) b b) :
    ∃ fuel l, path next fuel a = some l := by
  by_contra endless
  have goes : ∀ n, ∃ b, after next a n = some b := by
    intro n
    induction n with
    | zero => exact ⟨a, rfl⟩
    | succ n ih =>
      obtain ⟨b, here⟩ := ih
      cases link : next b with
      | none =>
        obtain ⟨l, walked⟩ := exists_path_of_after here link
        exact absurd ⟨n + 1, l, walked⟩ endless
      | some c => exact ⟨c, by simp [after, here, link]⟩
  choose place at_n using goes
  have link : ∀ n, next (place n) = some (place (n + 1)) := by
    intro n
    have more := at_n (n + 1)
    rw [after, at_n n] at more
    exact more
  have reached : ∀ n, Relation.ReflTransGen (Step next) a (place n) := by
    intro n
    exact reached_after (n := 0) (m := n) rfl (by rw [Nat.zero_add]; exact at_n n)
  have inside : Set.MapsTo place Set.univ
      {b | Relation.ReflTransGen (Step next) a b ∧ next b ≠ none} := by
    intro n _
    exact ⟨reached n, by simp [link n]⟩
  obtain ⟨i, -, j, -, less, same⟩ := Set.infinite_univ.exists_lt_map_eq_of_mapsTo inside finite
  obtain ⟨m, rfl⟩ : ∃ m, j = i + 1 + m := ⟨j - (i + 1), by omega⟩
  have cycle : Relation.TransGen (Step next) (place i) (place i) := by
    have back := reached_after (at_n (i + 1)) (at_n (i + 1 + m))
    rw [← same] at back
    exact Relation.TransGen.head' (link i) back
  exact acyclic _ (reached i) cycle

end Odin32.Walk
