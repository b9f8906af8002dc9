import Odin32.DepCyclic
import Mathlib.Algebra.Order.BigOperators.Group.List
import Mathlib.Data.List.InsertIdx

/-! # Runs of the cyclic check

The history stays sorted, so the search finds what is in it. The walk ends whatever the rules are;
it ends too deep only if a rule is on the stack twice, which takes a cycle among rules for which
there was no room in the history. -/

set_option autoImplicit false

namespace Odin32.DepCyclic
open Odin32.RankedTree Odin32.Avl

variable {rules : Rules} {pszRule pszDep : Name} {apszHistory : List Name}

/-! ## The history -/

def Below (apszHistory : List Name) (psz : Name) (i : ℤ) : Prop :=
  ∀ (n : ℕ) (lt : n < apszHistory.length), (n : ℤ) < i → apszHistory[n] < psz

def Above (apszHistory : List Name) (psz : Name) (i : ℤ) : Prop :=
  ∀ (n : ℕ) (lt : n < apszHistory.length), i ≤ (n : ℤ) → psz < apszHistory[n]

theorem entryAt_eq {j : ℤ} (low : 0 ≤ j) (high : j < apszHistory.length) :
    ∃ (n : ℕ) (lt : n < apszHistory.length), j = n ∧
      entryAt apszHistory j = some apszHistory[n] := by
  obtain ⟨n, rfl⟩ := Int.eq_ofNat_of_zero_le low
  have lt : n < apszHistory.length := by omega
  refine ⟨n, lt, rfl, ?_⟩
  rw [entryAt, if_pos low, Int.toNat_natCast, List.getElem?_eq_getElem lt]

theorem Below.of_gt (sorted : apszHistory.Pairwise (· < ·)) {psz : Name} {n : ℕ}
    (lt : n < apszHistory.length) (greater : apszHistory[n] < psz) :
    Below apszHistory psz (n + 1) := by
  intro m m_lt before
  rcases Nat.lt_or_ge m n with less | more
  · exact (List.pairwise_iff_getElem.mp sorted m n m_lt lt less).trans greater
  · obtain rfl : m = n := by omega
    exact greater

theorem Above.of_lt (sorted : apszHistory.Pairwise (· < ·)) {psz : Name} {n : ℕ}
    (lt : n < apszHistory.length) (less : psz < apszHistory[n]) : Above apszHistory psz n := by
  intro m m_lt behind
  rcases Nat.lt_or_ge n m with more | same
  · exact less.trans (List.pairwise_iff_getElem.mp sorted n m lt m_lt more)
  · obtain rfl : m = n := by omega
    exact less

/-- What the search tells: a place where the name is, or the place where it belongs. -/
def Tells (apszHistory : List Name) (psz : Name) (j : ℤ) : Ordering → Prop
  | .eq => psz ∈ apszHistory
  | .lt => 0 ≤ j ∧ j ≤ apszHistory.length ∧ Below apszHistory psz j ∧ Above apszHistory psz j
  | .gt => 0 ≤ j + 1 ∧ j + 1 ≤ apszHistory.length ∧ Below apszHistory psz (j + 1) ∧
    Above apszHistory psz (j + 1)

theorem search_tells (sorted : apszHistory.Pairwise (· < ·)) (psz : Name) (rounds : ℕ)
    (iStart iEnd j : ℤ) (enough : iEnd - iStart < rounds) (first : 0 ≤ iStart) (low : iStart ≤ j)
    (high : j ≤ iEnd) (last : iEnd < apszHistory.length) (below : Below apszHistory psz iStart)
    (above : Above apszHistory psz (iEnd + 1)) :
    ∃ j' iCmp, search psz apszHistory rounds iStart iEnd j = some (j', iCmp) ∧
      Tells apszHistory psz j' iCmp := by
  induction rounds generalizing iStart iEnd j with
  | zero => omega
  | succ rounds ih =>
    obtain ⟨n, lt, rfl, entry⟩ := entryAt_eq (first.trans low) (high.trans_lt last)
    rw [search, entry]
    dsimp only
    cases compared : strcmp psz apszHistory[n] with
    | eq =>
      refine ⟨n, .eq, if_neg fun both => both.1 rfl, ?_⟩
      rw [strcmp_eq.mp compared]
      exact List.getElem_mem lt
    | lt =>
      have above' := Above.of_lt sorted lt (strcmp_lt.mp compared)
      by_cases one : iEnd = iStart
      · refine ⟨n, .lt, if_neg fun both => both.2 one, ?_⟩
        obtain rfl : iStart = n := by omega
        exact ⟨first, by omega, below, above'⟩
      · rw [if_pos ⟨Ordering.noConfusion, one⟩, if_pos rfl, if_pos rfl]
        by_cases past : iStart > (n : ℤ) - 1
        · refine ⟨n, .lt, if_pos past, ?_⟩
          obtain rfl : iStart = n := by omega
          exact ⟨first, by omega, below, above'⟩
        · rw [if_neg past]
          refine ih _ _ _ (by omega) first (by omega) (by omega) (by omega) below ?_
          rw [Int.sub_add_cancel]
          exact above'
    | gt =>
      have below' := Below.of_gt sorted lt (strcmp_gt.mp compared)
      by_cases one : iEnd = iStart
      · refine ⟨n, .gt, if_neg fun both => both.2 one, ?_⟩
        obtain rfl : iEnd = n := by omega
        exact ⟨by omega, by omega, below', above⟩
      · have other : ¬ (Ordering.gt = .lt) := Ordering.noConfusion
        rw [if_pos ⟨Ordering.noConfusion, one⟩, if_neg other, if_neg other]
        by_cases past : (n : ℤ) + 1 > iEnd
        · refine ⟨n, .gt, if_pos past, ?_⟩
          obtain rfl : iEnd = n := by omega
          exact ⟨by omega, by omega, below', above⟩
        · rw [if_neg past]
          exact ih _ _ _ (by omega) (by omega) (by omega) (by omega) last below' above

theorem inHistory_tells (sorted : apszHistory.Pairwise (· < ·)) (filled : apszHistory ≠ [])
    (psz : Name) : ∃ j iCmp, inHistory psz apszHistory = some (j, iCmp) ∧
      Tells apszHistory psz j iCmp := by
  have pos := List.length_pos_of_ne_nil filled
  refine search_tells sorted psz _ _ _ _ (by omega) le_rfl (by omega) (by omega) (by omega) ?_ ?_
  · intro n _ before
    omega
  · intro n lt behind
    omega

theorem not_mem_of_place {psz : Name} {k : ℤ} (below : Below apszHistory psz k)
    (above : Above apszHistory psz k) : psz ∉ apszHistory := by
  intro there
  obtain ⟨n, lt, rfl⟩ := List.getElem_of_mem there
  rcases lt_or_ge (n : ℤ) k with less | more
  · exact lt_irrefl _ (below n lt less)
  · exact lt_irrefl _ (above n lt more)

/-- The history after a rule that was not in it. -/
structure Grown (psz : Name) (apszHistory grown : List Name) : Prop where
  sorted : grown.Pairwise (· < ·)
  keeps : ∀ other ∈ apszHistory, other ∈ grown
  only : ∀ other ∈ grown, other = psz ∨ other ∈ apszHistory
  room : apszHistory.length < history → psz ∈ grown
  length : apszHistory.length < history → grown.length = apszHistory.length + 1
  full : history ≤ apszHistory.length → grown = apszHistory

theorem insertIdx_sorted (k : ℕ) (sorted : apszHistory.Pairwise (· < ·)) {psz : Name}
    (high : k ≤ apszHistory.length) (below : Below apszHistory psz k)
    (above : Above apszHistory psz k) : (apszHistory.insertIdx k psz).Pairwise (· < ·) := by
  induction k generalizing apszHistory with
  | zero =>
    refine List.pairwise_cons.mpr ⟨fun other there => ?_, sorted⟩
    obtain ⟨n, lt, rfl⟩ := List.getElem_of_mem there
    exact above n lt (by omega)
  | succ k ih =>
    cases apszHistory with
    | nil => cases high
    | cons first rest =>
      obtain ⟨ahead, sorted⟩ := List.pairwise_cons.mp sorted
      have fits : k ≤ rest.length := Nat.le_of_succ_le_succ high
      have less : first < psz := below 0 (Nat.succ_pos _) (by omega)
      refine List.pairwise_cons.mpr ⟨fun other there => ?_, ?_⟩
      · rcases (List.mem_insertIdx fits).mp there with rfl | there
        · exact less
        · exact ahead other there
      · refine ih sorted fits (fun n lt before => ?_) fun n lt behind => ?_
        · exact below (n + 1) (Nat.succ_lt_succ lt) (by omega)
        · exact above (n + 1) (Nat.succ_lt_succ lt) (by omega)

theorem pushHistory_grown (sorted : apszHistory.Pairwise (· < ·)) {psz : Name} {j : ℤ}
    {iCmp : Ordering} (other : iCmp ≠ .eq) (tells : Tells apszHistory psz j iCmp) :
    psz ∉ apszHistory ∧
      ∃ grown, pushHistory apszHistory j iCmp psz = some grown ∧ Grown psz apszHistory grown := by
  obtain ⟨k, high, place, below, above⟩ : ∃ k : ℕ, k ≤ apszHistory.length ∧
      (if iCmp = .gt then j + 1 else j) = k ∧
      Below apszHistory psz k ∧ Above apszHistory psz k := by
    cases iCmp with
    | eq => exact absurd rfl other
    | lt =>
      obtain ⟨low, high, below, above⟩ := tells
      obtain ⟨k, rfl⟩ := Int.eq_ofNat_of_zero_le low
      exact ⟨k, by omega, rfl, below, above⟩
    | gt =>
      obtain ⟨low, high, below, above⟩ := tells
      obtain ⟨k, eq⟩ := Int.eq_ofNat_of_zero_le low
      rw [eq] at high below above
      exact ⟨k, by omega, eq, below, above⟩
  refine ⟨not_mem_of_place below above, ?_⟩
  by_cases room : apszHistory.length < history
  · refine ⟨apszHistory.insertIdx k psz, ?_, ?_⟩
    · rw [pushHistory, if_pos room, place, insertAt, if_pos ⟨by omega, by omega, room⟩,
        Int.toNat_natCast]
    · exact {
        sorted := insertIdx_sorted k sorted high below above
        keeps := fun name there => (List.mem_insertIdx high).mpr (.inr there)
        only := fun name there => (List.mem_insertIdx high).mp there
        room := fun _ => (List.mem_insertIdx high).mpr (.inl rfl)
        length := fun _ => List.length_insertIdx_of_le_length high psz
        full := fun none => absurd room (not_lt.mpr none) }
  · refine ⟨apszHistory, if_neg room, ?_⟩
    exact {
      sorted := sorted
      keeps := fun _ there => there
      only := fun _ there => .inr there
      room := fun less => absurd less room
      length := fun less => absurd less room
      full := fun _ => rfl }

/-! ## What a round does -/

inductive Moves (rules : Rules) (pszRule : Name) : State → Round → Prop
  | done (h : List Name) : Moves rules pszRule ⟨[], [], h⟩ (.ends (.returns false))
  | pop (top : List Name) (appsz : List (List Name)) (h : List Name) :
    Moves rules pszRule ⟨[], top :: appsz, h⟩ (.goesOn ⟨top, appsz, h⟩)
  | found (ppsz : List Name) (appsz : List (List Name)) (h : List Name) :
    Moves rules pszRule ⟨pszRule :: ppsz, appsz, h⟩ (.ends (.returns true))
  | leaf (psz : Name) (ppsz : List Name) (appsz : List (List Name)) (h : List Name)
    (other : pszRule ≠ psz)
    (no_list : ∀ papszDep, (psz, some papszDep) ∉ entries rules.pdepTree) :
    Moves rules pszRule ⟨psz :: ppsz, appsz, h⟩ (.goesOn ⟨ppsz, appsz, h⟩)
  | tooDeep (psz : Name) (ppsz : List Name) (appsz : List (List Name)) (h : List Name)
    (deep : depth ≤ appsz.length) :
    Moves rules pszRule ⟨psz :: ppsz, appsz, h⟩ (.ends (.returns false))
  | skip (psz : Name) (ppsz : List Name) (appsz : List (List Name)) (h : List Name)
    (other : pszRule ≠ psz) (known : psz ∈ h) :
    Moves rules pszRule ⟨psz :: ppsz, appsz, h⟩ (.goesOn ⟨ppsz, appsz, h⟩)
  | push (psz : Name) (ppsz : List Name) (appsz : List (List Name)) (h : List Name)
    (papszDep h' : List Name) (other : pszRule ≠ psz)
    (there : (psz, some papszDep) ∈ entries rules.pdepTree) (unknown : psz ∉ h)
    (room : appsz.length < depth) (grown : Grown psz h h') :
    Moves rules pszRule ⟨psz :: ppsz, appsz, h⟩ (.goesOn ⟨papszDep, ppsz :: appsz, h'⟩)

theorem get_cases (rules : Rules) (psz : Name) :
    (rules.get psz = none ∧ ∀ papszDep, (psz, some papszDep) ∉ entries rules.pdepTree) ∨
    ∃ papszDep, rules.get psz = some (psz, papszDep) ∧
      (psz, some papszDep) ∈ entries rules.pdepTree := by
  cases found : avlGet psz rules.pdepTree with
  | none =>
    refine .inl ⟨by rw [Rules.get, found], fun papszDep there => ?_⟩
    exact AvlTable.get_none rules.ordered found (List.mem_map_of_mem there)
  | some e =>
    obtain ⟨name, list⟩ := e
    obtain ⟨rfl, member⟩ := AvlTable.get_some found
    cases list with
    | none =>
      refine .inl ⟨by rw [Rules.get, found], fun papszDep there => ?_⟩
      cases val_unique rules.ordered member there
    | some papszDep => exact .inr ⟨papszDep, by rw [Rules.get, found], member⟩

theorem round_moves (s : State) (sorted : s.apszHistory.Pairwise (· < ·))
    (filled : s.apszHistory ≠ []) : Moves rules pszRule s (round rules pszRule s) := by
  obtain ⟨ppsz, appsz, h⟩ := s
  cases ppsz with
  | nil =>
    cases appsz with
    | nil => exact .done h
    | cons top appsz => exact .pop top appsz h
  | cons psz ppsz =>
    rw [round]
    dsimp only
    by_cases same : pszRule = psz
    · rw [if_pos (strcmp_eq.mpr same), same]
      exact .found ppsz appsz h
    · rw [if_neg fun equal => same (strcmp_eq.mp equal)]
      obtain ⟨got, no_list⟩ | ⟨papszDep, got, there⟩ := get_cases rules psz
      · rw [got]
        exact .leaf psz ppsz appsz h same no_list
      · rw [got]
        dsimp only
        by_cases deep : appsz.length ≥ depth
        · rw [if_pos deep]
          exact .tooDeep psz ppsz appsz h deep
        · have room : appsz.length < depth := not_le.mp deep
          rw [if_neg deep, enter]
          obtain ⟨j, iCmp, searched, tells⟩ := inHistory_tells sorted filled psz
          have told : inHistory psz h = some (j, iCmp) := searched
          rw [told]
          by_cases equal : iCmp = .eq
          · subst equal
            exact .skip psz ppsz appsz h same tells
          · obtain ⟨unknown, h', pushed, grown⟩ := pushHistory_grown sorted equal tells
            have pushed' : pushHistory h j iCmp psz = some h' := pushed
            have stacked : pushStack appsz ppsz = some (ppsz :: appsz) := if_pos room
            cases iCmp with
            | eq => exact absurd rfl equal
            | lt =>
              dsimp only
              rw [pushed', stacked]
              exact .push psz ppsz appsz h papszDep h' same there unknown room grown
            | gt =>
              dsimp only
              rw [pushed', stacked]
              exact .push psz ppsz appsz h papszDep h' same there unknown room grown

/-! ## What holds of the walk -/

/-- `nodes` are the rules of the stacked lists, the innermost first; `visited` are the rules whose
lists have been begun. -/
structure Inv (rules : Rules) (pszRule pszDep : Name) (s : State) (nodes : List Name)
    (visited : Name → Prop) : Prop where
  sorted : s.apszHistory.Pairwise (· < ·)
  filled : s.apszHistory ≠ []
  known : ∀ psz ∈ s.apszHistory, visited psz
  start : visited pszDep
  reached : ∀ u, visited u → rules.Reaches pszDep u
  listed : ∀ u, visited u → ∃ papszDep, (u, some papszDep) ∈ entries rules.pdepTree
  pending : ∀ u v, visited u → rules.Depends u v →
    (v ≠ pszRule ∧ ∀ papszDep, (v, some papszDep) ∈ entries rules.pdepTree → visited v) ∨
    ∃ ps ∈ s.ppsz :: s.appsz, v ∈ ps
  frames : List.Forall₂ (fun u ps => ∀ v ∈ ps, rules.Depends u v) nodes (s.ppsz :: s.appsz)
  path : ∀ u ∈ nodes, visited u
  chain : nodes.IsChain fun u v => rules.Depends v u
  kept : rules.Few pszDep → ∀ u ∈ nodes, u ∈ s.apszHistory
  nodup : rules.Few pszDep → nodes.Nodup

variable {s s' : State} {nodes : List Name} {visited : Name → Prop}

theorem Inv.passes {psz : Name} {ppsz : List Name} {appsz : List (List Name)} {h : List Name}
    (inv : Inv rules pszRule pszDep ⟨psz :: ppsz, appsz, h⟩ nodes visited) (other : pszRule ≠ psz)
    (walked : ∀ papszDep, (psz, some papszDep) ∈ entries rules.pdepTree → visited psz) :
    Inv rules pszRule pszDep ⟨ppsz, appsz, h⟩ nodes visited where
  sorted := inv.sorted
  filled := inv.filled
  known := inv.known
  start := inv.start
  reached := inv.reached
  listed := inv.listed
  pending u v at_u depends := by
    obtain done | ⟨ps, among, there⟩ := inv.pending u v at_u depends
    · exact .inl done
    · rcases List.mem_cons.mp among with rfl | deeper
      · rcases List.mem_cons.mp there with rfl | later
        · exact .inl ⟨other.symm, walked⟩
        · exact .inr ⟨ppsz, List.mem_cons_self, later⟩
      · exact .inr ⟨ps, List.mem_cons_of_mem _ deeper, there⟩
  frames := by
    obtain ⟨node, rest, at_node, deeper, rfl⟩ := List.forall₂_cons_right_iff.mp inv.frames
    exact .cons (fun v there => at_node v (List.mem_cons_of_mem _ there)) deeper
  path := inv.path
  chain := inv.chain
  kept := inv.kept
  nodup := inv.nodup

theorem Inv.pop {top : List Name} {appsz : List (List Name)} {h : List Name}
    (inv : Inv rules pszRule pszDep ⟨[], top :: appsz, h⟩ nodes visited) :
    ∃ nodes', Inv rules pszRule pszDep ⟨top, appsz, h⟩ nodes' visited := by
  obtain ⟨node, nodes', _, deeper, rfl⟩ := List.forall₂_cons_right_iff.mp inv.frames
  refine ⟨nodes', ?_⟩
  exact {
    sorted := inv.sorted
    filled := inv.filled
    known := inv.known
    start := inv.start
    reached := inv.reached
    listed := inv.listed
    pending := fun u v at_u depends => by
      obtain done | ⟨ps, among, there⟩ := inv.pending u v at_u depends
      · exact .inl done
      · rcases List.mem_cons.mp among with rfl | deeper
        · cases there
        · exact .inr ⟨ps, deeper, there⟩
    frames := deeper
    path := fun u there => inv.path u (List.mem_cons_of_mem _ there)
    chain := inv.chain.tail
    kept := fun few u there => inv.kept few u (List.mem_cons_of_mem _ there)
    nodup := fun few => (inv.nodup few).of_cons }

theorem Inv.room {psz : Name} {papszDep : List Name}
    (inv : Inv rules pszRule pszDep s nodes visited) (few : rules.Few pszDep)
    (reached : rules.Reaches pszDep psz) (there : (psz, some papszDep) ∈ entries rules.pdepTree)
    (unknown : psz ∉ s.apszHistory) : s.apszHistory.length < history := by
  obtain ⟨all, fits, complete⟩ := few
  have nodup : (psz :: s.apszHistory).Nodup :=
    List.nodup_cons.mpr ⟨unknown, inv.sorted.imp fun less => ne_of_lt less⟩
  have subset : psz :: s.apszHistory ⊆ all := by
    intro name among
    rcases List.mem_cons.mp among with rfl | known
    · exact complete name papszDep reached there
    · obtain ⟨list, listed⟩ := inv.listed name (inv.known name known)
      exact complete name list (inv.reached name (inv.known name known)) listed
  exact (nodup.subperm subset).length_le.trans fits

theorem Inv.push {psz : Name} {ppsz : List Name} {appsz : List (List Name)}
    {h papszDep h' : List Name}
    (inv : Inv rules pszRule pszDep ⟨psz :: ppsz, appsz, h⟩ nodes visited) (other : pszRule ≠ psz)
    (there : (psz, some papszDep) ∈ entries rules.pdepTree) (unknown : psz ∉ h)
    (grown : Grown psz h h') :
    Inv rules pszRule pszDep ⟨papszDep, ppsz :: appsz, h'⟩ (psz :: nodes)
      fun u => u = psz ∨ visited u := by
  have passed := inv.frames
  obtain ⟨node, rest, at_node, deeper, rfl⟩ := List.forall₂_cons_right_iff.mp passed
  have depends : rules.Depends node psz := at_node psz List.mem_cons_self
  have reached : rules.Reaches pszDep psz :=
    (inv.reached node (inv.path node List.mem_cons_self)).tail depends
  exact {
    sorted := grown.sorted
    filled := by
      intro empty
      obtain ⟨name, known⟩ := List.exists_mem_of_ne_nil _ inv.filled
      have kept := grown.keeps name known
      rw [show h' = [] from empty] at kept
      cases kept
    known := fun name known => (grown.only name known).imp_right (inv.known name)
    start := .inr inv.start
    reached := by
      rintro u (rfl | at_u)
      · exact reached
      · exact inv.reached u at_u
    listed := by
      rintro u (rfl | at_u)
      · exact ⟨papszDep, there⟩
      · exact inv.listed u at_u
    pending := by
      rintro u v (rfl | at_u) depends
      · obtain ⟨list, listed, member⟩ := depends
        obtain rfl : papszDep = list :=
          Option.some.inj (val_unique rules.ordered there listed)
        exact .inr ⟨papszDep, List.mem_cons_self, member⟩
      · obtain ⟨not_rule, walked⟩ | ⟨ps, among, member⟩ := inv.pending u v at_u depends
        · exact .inl ⟨not_rule, fun list listed => .inr (walked list listed)⟩
        · rcases List.mem_cons.mp among with rfl | below
          · rcases List.mem_cons.mp member with rfl | later
            · exact .inl ⟨other.symm, fun _ _ => .inl rfl⟩
            · exact .inr ⟨ppsz, List.mem_cons_of_mem _ List.mem_cons_self, later⟩
          · exact .inr ⟨ps, List.mem_cons_of_mem _ (List.mem_cons_of_mem _ below), member⟩
    frames := by
      refine .cons (fun v member => ⟨papszDep, there, member⟩) (.cons ?_ deeper)
      exact fun v member => at_node v (List.mem_cons_of_mem _ member)
    path := by
      intro u among
      exact (List.mem_cons.mp among).imp_right (inv.path u)
    chain := .cons_cons depends inv.chain
    kept := by
      intro few u among
      rcases List.mem_cons.mp among with rfl | among
      · exact grown.room (inv.room few reached there unknown)
      · exact grown.keeps u (inv.kept few u among)
    nodup := fun few => List.nodup_cons.mpr
      ⟨fun among => unknown (inv.kept few psz among), inv.nodup few⟩ }

/-! ## The end of the walk -/

theorem Inv.complete {h : List Name} (inv : Inv rules pszRule pszDep ⟨[], [], h⟩ nodes visited)
    (other : pszDep ≠ pszRule) : ¬ rules.Reaches pszDep pszRule := by
  have closed : ∀ v, rules.Reaches pszDep v → v ≠ pszRule ∧
      ∀ papszDep, (v, some papszDep) ∈ entries rules.pdepTree → visited v := by
    intro v reaches
    induction reaches with
    | refl => exact ⟨other, fun _ _ => inv.start⟩
    | tail _ depends ih =>
      obtain ⟨papszDep, there, member⟩ := depends
      have at_u := ih.2 papszDep there
      obtain done | ⟨ps, among, left⟩ := inv.pending _ _ at_u ⟨papszDep, there, member⟩
      · exact done
      · obtain rfl := List.mem_singleton.mp among
        cases left
  exact fun reaches => (closed pszRule reaches).1 rfl

theorem nodup_of_acyclic (acyclic : rules.Acyclic pszDep)
    (reached : ∀ u ∈ nodes, rules.Reaches pszDep u)
    (chain : nodes.IsChain fun u v => rules.Depends v u) : nodes.Nodup := by
  have ordered : nodes.Pairwise fun u v => Relation.TransGen rules.Depends v u := by
    have steps : nodes.IsChain fun u v => Relation.TransGen rules.Depends v u :=
      chain.imp fun _ _ depends => .single depends
    have : IsTrans Name fun u v => Relation.TransGen rules.Depends v u :=
      ⟨fun _ _ _ first second => second.trans first⟩
    exact List.isChain_iff_pairwise.mp steps
  refine ordered.imp_of_mem ?_
  rintro u _ among _ path rfl
  exact acyclic u (reached u among) path

theorem Inv.not_deep (inv : Inv rules pszRule pszDep s nodes visited) (short : rules.Short)
    (fits : rules.Few pszDep ∨ rules.Acyclic pszDep) : s.appsz.length < depth := by
  have nodup : nodes.Nodup := by
    rcases fits with few | acyclic
    · exact inv.nodup few
    · exact nodup_of_acyclic acyclic (fun u among => inv.reached u (inv.path u among)) inv.chain
  have path := short nodes.reverse (List.nodup_reverse.mpr nodup)
    (List.isChain_reverse.mpr inv.chain)
  rw [List.length_reverse, inv.frames.length_eq, List.length_cons] at path
  exact path

/-- What a result says. -/
structure Right (rules : Rules) (pszRule pszDep : Name) (rc : Bool) : Prop where
  sound : rc = true → rules.Reaches pszDep pszRule
  complete : rules.Short → rules.Few pszDep ∨ rules.Acyclic pszDep →
    rules.Reaches pszDep pszRule → rc = true

/-! ## The walk comes to an end -/

/-- What a name of a list may cost, with room for so many lists above. -/
def weight (longest : ℕ) : ℕ → ℕ
  | 0 => 1
  | room + 1 => 2 + longest * weight longest room

/-- What the lists on the stack may cost. -/
def cost (longest : ℕ) : List (List Name) → ℕ
  | [] => 0
  | ppsz :: appsz =>
    1 + ppsz.length * weight longest (depth + 1 - appsz.length) + cost longest appsz

theorem weight_pos (longest room : ℕ) : 0 < weight longest room := by
  cases room with
  | zero => exact Nat.one_pos
  | succ room =>
    rw [weight]
    omega

/-- The longest list. -/
def longest (rules : Rules) : ℕ :=
  ((entries rules.pdepTree).map fun e => (e.2.getD []).length).sum

theorem length_le_longest {psz : Name} {papszDep : List Name}
    (there : (psz, some papszDep) ∈ entries rules.pdepTree) :
    papszDep.length ≤ longest rules :=
  List.le_sum_of_mem (List.mem_map.mpr ⟨_, there, rfl⟩)

theorem cost_moves (moves : Moves rules pszRule s (.goesOn s')) :
    cost (longest rules) (s'.ppsz :: s'.appsz) < cost (longest rules) (s.ppsz :: s.appsz) := by
  have passes (ppsz : List Name) (appsz : List (List Name)) (psz : Name) :
      cost (longest rules) (ppsz :: appsz) < cost (longest rules) ((psz :: ppsz) :: appsz) := by
    have := weight_pos (longest rules) (depth + 1 - appsz.length)
    rw [cost, cost, List.length_cons, Nat.succ_mul]
    omega
  cases moves with
  | pop top appsz h =>
    show cost _ (top :: appsz) < 1 + 0 * _ + cost _ (top :: appsz)
    omega
  | leaf psz ppsz appsz h other no_list => exact passes ppsz appsz psz
  | skip psz ppsz appsz h other known => exact passes ppsz appsz psz
  | push psz ppsz appsz h papszDep h' other there unknown room grown =>
    have here : depth + 1 - appsz.length = depth - appsz.length + 1 := by omega
    have above : depth + 1 - (ppsz :: appsz).length = depth - appsz.length := by
      rw [List.length_cons]
      omega
    have list := Nat.mul_le_mul_right (weight (longest rules) (depth - appsz.length))
      (length_le_longest there)
    show cost _ (papszDep :: ppsz :: appsz) < cost _ ((psz :: ppsz) :: appsz)
    rw [cost, cost, cost, above, here, List.length_cons, Nat.succ_mul, weight]
    omega

/-! ## Every walk -/

theorem Inv.moves {r : Round} (inv : Inv rules pszRule pszDep s nodes visited)
    (other : pszDep ≠ pszRule) (moves : Moves rules pszRule s r) :
    (∃ s' nodes' visited', r = .goesOn s' ∧ Inv rules pszRule pszDep s' nodes' visited') ∨
    ∃ rc, r = .ends (.returns rc) ∧ Right rules pszRule pszDep rc := by
  cases moves with
  | done h =>
    refine .inr ⟨false, rfl, Bool.noConfusion, fun _ _ reaches => ?_⟩
    exact absurd reaches (inv.complete other)
  | pop top appsz h =>
    obtain ⟨nodes', inv'⟩ := inv.pop
    exact .inl ⟨_, nodes', visited, rfl, inv'⟩
  | found ppsz appsz h =>
    obtain ⟨node, rest, at_node, _, rfl⟩ := List.forall₂_cons_right_iff.mp inv.frames
    have reached := inv.reached node (inv.path node List.mem_cons_self)
    refine .inr ⟨true, rfl, fun _ => ?_, fun _ _ _ => rfl⟩
    exact reached.tail (at_node pszRule List.mem_cons_self)
  | leaf psz ppsz appsz h ne no_list =>
    refine .inl ⟨_, nodes, visited, rfl, inv.passes ne fun papszDep there => ?_⟩
    exact absurd there (no_list papszDep)
  | tooDeep psz ppsz appsz h deep =>
    refine .inr ⟨false, rfl, Bool.noConfusion, fun short fits _ => ?_⟩
    exact absurd (inv.not_deep short fits) (not_lt.mpr deep)
  | skip psz ppsz appsz h ne known =>
    exact .inl ⟨_, nodes, visited, rfl, inv.passes ne fun _ _ => inv.known psz known⟩
  | push psz ppsz appsz h papszDep h' ne there unknown room grown =>
    exact .inl ⟨_, _, _, rfl, inv.push ne there unknown grown⟩

theorem walk_right (bound : ℕ) (inv : Inv rules pszRule pszDep s nodes visited)
    (other : pszDep ≠ pszRule) (cheap : cost (longest rules) (s.ppsz :: s.appsz) ≤ bound) :
    ∃ rc, Right rules pszRule pszDep rc ∧
      ∀ rounds, bound < rounds → walk rules pszRule rounds s = some (.returns rc) := by
  have moves : Moves rules pszRule s (round rules pszRule s) :=
    round_moves s inv.sorted inv.filled
  induction bound generalizing s nodes visited with
  | zero =>
    rw [cost] at cheap
    omega
  | succ bound ih =>
    obtain ⟨s', nodes', visited', goes, inv'⟩ | ⟨rc, ends, right⟩ := inv.moves other moves
    · rw [goes] at moves
      have cheaper := cost_moves moves
      obtain ⟨rc, right, walks⟩ := ih inv' (by omega) (round_moves s' inv'.sorted inv'.filled)
      refine ⟨rc, right, fun rounds more => ?_⟩
      obtain ⟨rounds, rfl⟩ := Nat.exists_eq_add_one_of_ne_zero (by omega : rounds ≠ 0)
      rw [walk, goes]
      exact walks rounds (by omega)
    · refine ⟨rc, right, fun rounds more => ?_⟩
      obtain ⟨rounds, rfl⟩ := Nat.exists_eq_add_one_of_ne_zero (by omega : rounds ≠ 0)
      rw [walk, ends]

theorem start_inv {papszDep : List Name}
    (there : (pszDep, some papszDep) ∈ entries rules.pdepTree) :
    Inv rules pszRule pszDep ⟨papszDep, [], [pszDep]⟩ [pszDep] fun u => u = pszDep where
  sorted := List.pairwise_singleton _ _
  filled := List.cons_ne_nil _ _
  known psz known := List.mem_singleton.mp known
  start := rfl
  reached := by
    rintro u rfl
    exact .refl
  listed := by
    rintro u rfl
    exact ⟨papszDep, there⟩
  pending := by
    rintro u v rfl ⟨list, listed, member⟩
    obtain rfl : papszDep = list := Option.some.inj (val_unique rules.ordered there listed)
    exact .inr ⟨papszDep, List.mem_cons_self, member⟩
  frames := .cons (fun v member => ⟨papszDep, there, member⟩) .nil
  path u among := List.mem_singleton.mp among
  chain := .singleton _
  kept _ u among := among
  nodup _ := List.nodup_singleton _

/-- Whatever the rules are, the check ends with a result and without a store outside of its arrays,
and `TRUE` is right. With short paths the result is exact, if the history has room for all rules
with dependents that are reached, or if none of them is on a cycle. -/
theorem depCheckCyclic_right (rules : Rules) (pszRule pszDep : Name) :
    ∃ rc, Ends rules pszRule pszDep rc ∧ Right rules pszRule pszDep rc := by
  by_cases same : pszRule = pszDep
  · refine ⟨true, ⟨0, fun rounds _ => ?_⟩, fun _ => same ▸ .refl, fun _ _ _ => rfl⟩
    rw [depCheckCyclic, if_pos (strcmp_eq.mpr same)]
  · have differs : ¬ strcmp pszRule pszDep = .eq := fun equal => same (strcmp_eq.mp equal)
    obtain ⟨got, no_list⟩ | ⟨papszDep, got, there⟩ := get_cases rules pszDep
    · refine ⟨false, ⟨0, fun rounds _ => ?_⟩, Bool.noConfusion, fun _ _ reaches => ?_⟩
      · rw [depCheckCyclic, if_neg differs, got]
      · obtain equal | ⟨_, ⟨papszDep, there, _⟩, _⟩ := reaches.cases_head
        · exact absurd equal.symm same
        · exact absurd there (no_list papszDep)
    · obtain ⟨rc, right, walks⟩ :=
        walk_right _ (start_inv there) (fun equal => same equal.symm) le_rfl
      refine ⟨rc, ⟨cost (longest rules) [papszDep] + 1, fun rounds enough => ?_⟩, right⟩
      rw [depCheckCyclic, if_neg differs, got]
      exact walks rounds (Nat.lt_of_succ_le enough)

/-! ## A cycle behind a full history -/

/-- `s` comes to `s'` after some rounds. -/
def Goes (rules : Rules) (pszRule : Name) : State → State → Prop :=
  Relation.ReflTransGen fun s s' => round rules pszRule s = .goesOn s'

theorem Goes.ends {outcome : Outcome} (goes : Goes rules pszRule s s')
    (ends : ∃ enough, ∀ rounds, enough ≤ rounds → walk rules pszRule rounds s' = some outcome) :
    ∃ enough, ∀ rounds, enough ≤ rounds → walk rules pszRule rounds s = some outcome := by
  induction goes using Relation.ReflTransGen.head_induction_on with
  | refl => exact ends
  | head first _ ih =>
    obtain ⟨enough, walks⟩ := ih
    refine ⟨enough + 1, fun rounds more => ?_⟩
    obtain ⟨rounds, rfl⟩ := Nat.exists_eq_add_one_of_ne_zero (by omega : rounds ≠ 0)
    rw [walk, first]
    exact walks rounds (by omega)

theorem round_push {psz : Name} {papszDep : List Name} (ppsz : List Name)
    (appsz : List (List Name)) (sorted : apszHistory.Pairwise (· < ·)) (filled : apszHistory ≠ [])
    (other : pszRule ≠ psz) (there : (psz, some papszDep) ∈ entries rules.pdepTree)
    (unknown : psz ∉ apszHistory) (room : appsz.length < depth) :
    ∃ h', Grown psz apszHistory h' ∧
      round rules pszRule ⟨psz :: ppsz, appsz, apszHistory⟩ =
        .goesOn ⟨papszDep, ppsz :: appsz, h'⟩ := by
  have moves : Moves rules pszRule _ _ :=
    round_moves ⟨psz :: ppsz, appsz, apszHistory⟩ sorted filled
  generalize at_round : round rules pszRule ⟨psz :: ppsz, appsz, apszHistory⟩ = r at moves
  cases moves with
  | found => exact absurd rfl other
  | leaf _ _ _ _ _ no_list => exact absurd there (no_list papszDep)
  | tooDeep _ _ _ _ deep => exact absurd room (not_lt.mpr deep)
  | skip _ _ _ _ _ known => exact absurd known unknown
  | push _ _ _ _ papszDep' h' _ there' _ _ grown =>
    obtain rfl : papszDep = papszDep' := Option.some.inj (val_unique rules.ordered there there')
    exact ⟨h', grown, rfl⟩

theorem round_leaf {psz : Name} (ppsz : List Name) (appsz : List (List Name))
    (apszHistory : List Name) (other : pszRule ≠ psz)
    (no_list : ∀ papszDep, (psz, some papszDep) ∉ entries rules.pdepTree) :
    round rules pszRule ⟨psz :: ppsz, appsz, apszHistory⟩ =
      .goesOn ⟨ppsz, appsz, apszHistory⟩ := by
  obtain ⟨got, _⟩ | ⟨papszDep, _, there⟩ := get_cases rules psz
  · rw [round]
    dsimp only
    rw [if_neg fun equal => other (strcmp_eq.mp equal), got]
  · exact absurd there (no_list papszDep)

theorem headers_go {leaf : Name} (headers ppsz : List Name) (leaf_other : pszRule ≠ leaf)
    (no_list : ∀ papszDep, (leaf, some papszDep) ∉ entries rules.pdepTree)
    (there : ∀ h ∈ headers, pszRule ≠ h ∧ (h, some [leaf]) ∈ entries rules.pdepTree)
    (nodup : headers.Nodup) (sorted : apszHistory.Pairwise (· < ·)) (filled : apszHistory ≠ [])
    (unknown : ∀ h ∈ headers, h ∉ apszHistory)
    (fits : apszHistory.length + headers.length ≤ history) :
    ∃ h', h'.Pairwise (· < ·) ∧ h' ≠ [] ∧ h'.length = apszHistory.length + headers.length ∧
      (∀ psz ∈ h', psz ∈ headers ∨ psz ∈ apszHistory) ∧
      Goes rules pszRule ⟨headers ++ ppsz, [], apszHistory⟩ ⟨ppsz, [], h'⟩ := by
  induction headers generalizing apszHistory with
  | nil => exact ⟨apszHistory, sorted, filled, rfl, fun _ known => .inr known, .refl⟩
  | cons first headers ih =>
    obtain ⟨first_new, nodup⟩ := List.nodup_cons.mp nodup
    obtain ⟨other, first_there⟩ := there first List.mem_cons_self
    rw [List.length_cons] at fits
    obtain ⟨grown, grows, pushed⟩ := round_push (headers ++ ppsz) [] sorted filled
      other first_there (unknown first List.mem_cons_self) (Nat.succ_pos 31)
    have length := grows.length (by omega)
    obtain ⟨h', sorted', filled', length', only, goes⟩ := ih
      (fun h among => there h (List.mem_cons_of_mem _ among)) nodup grows.sorted
      (List.ne_nil_of_length_pos (by omega))
      (fun h among known => by
        rcases grows.only h known with rfl | older
        · exact first_new among
        · exact unknown h (List.mem_cons_of_mem _ among) older)
      (by omega)
    refine ⟨h', sorted', filled', by rw [length', length, List.length_cons]; omega, ?_, ?_⟩
    · intro psz known
      rcases only psz known with among | old
      · exact .inl (List.mem_cons_of_mem _ among)
      · rcases grows.only psz old with rfl | older
        · exact .inl List.mem_cons_self
        · exact .inr older
    · have leaf := round_leaf [] [headers ++ ppsz] grown leaf_other no_list
      exact .head pushed (.head leaf (.head rfl goes))

theorem looped_ends {looped : Name} {more : List Name} (other : pszRule ≠ looped)
    (there : (looped, some (looped :: more)) ∈ entries rules.pdepTree)
    (sorted : apszHistory.Pairwise (· < ·)) (full : history ≤ apszHistory.length)
    (unknown : looped ∉ apszHistory) (left : ℕ) (ppsz : List Name) (appsz : List (List Name))
    (all : appsz.length + left = depth) :
    ∃ enough, ∀ rounds, enough ≤ rounds →
      walk rules pszRule rounds ⟨looped :: ppsz, appsz, apszHistory⟩ =
        some (.returns false) := by
  have filled : apszHistory ≠ [] := List.ne_nil_of_length_pos ((Nat.succ_pos 255).trans_le full)
  induction left generalizing ppsz appsz with
  | zero =>
    have ends : round rules pszRule ⟨looped :: ppsz, appsz, apszHistory⟩ =
        .ends (.returns false) := by
      obtain ⟨_, no_list⟩ | ⟨papszDep, got, _⟩ := get_cases rules looped
      · exact absurd there (no_list _)
      · rw [round]
        dsimp only
        rw [if_neg fun equal => other (strcmp_eq.mp equal), got]
        dsimp only
        rw [if_pos (show depth ≤ appsz.length by omega)]
    refine ⟨1, fun rounds one => ?_⟩
    obtain ⟨rounds, rfl⟩ := Nat.exists_eq_add_one_of_ne_zero (by omega : rounds ≠ 0)
    rw [walk, ends]
  | succ left ih =>
    obtain ⟨h', grown, pushed⟩ := round_push ppsz appsz sorted filled other there
      unknown (by omega)
    rw [grown.full full] at pushed
    have deeper : (ppsz :: appsz).length + left = depth := by
      rw [List.length_cons]
      omega
    exact Goes.ends (.single pushed) (ih more (ppsz :: appsz) deeper)

/-- Where the history is full of rules without a cycle, a rule that includes itself leads to
`FALSE`, whatever else it depends on. -/
theorem full_history_ends {headers more behind : List Name} {leaf looped : Name}
    (candidate_there : (pszDep, some (headers ++ looped :: behind)) ∈ entries rules.pdepTree)
    (count : headers.length = 255) (nodup : headers.Nodup)
    (there : ∀ h ∈ headers, pszRule ≠ h ∧ (h, some [leaf]) ∈ entries rules.pdepTree)
    (unknown : ∀ h ∈ headers, h ≠ pszDep) (leaf_other : pszRule ≠ leaf)
    (no_list : ∀ papszDep, (leaf, some papszDep) ∉ entries rules.pdepTree)
    (looped_there : (looped, some (looped :: more)) ∈ entries rules.pdepTree)
    (looped_new : looped ∉ pszDep :: headers) (looped_other : pszRule ≠ looped)
    (other : pszRule ≠ pszDep) : Ends rules pszRule pszDep false := by
  obtain ⟨h', sorted, _, length, only, goes⟩ := headers_go headers
    (looped :: behind) leaf_other no_list there nodup (List.pairwise_singleton _ pszDep)
    (List.cons_ne_nil _ _) (fun h among known => unknown h among (List.mem_singleton.mp known))
    (by rw [count]; exact le_rfl)
  have full : history ≤ h'.length := by
    rw [length, count]
    exact le_rfl
  have new : looped ∉ h' := by
    intro known
    rcases only looped known with among | old
    · exact looped_new (List.mem_cons_of_mem _ among)
    · exact looped_new (List.mem_singleton.mp old ▸ List.mem_cons_self)
  obtain ⟨enough, walks⟩ := goes.ends
    (looped_ends looped_other looped_there sorted full new depth behind [] (Nat.zero_add _))
  refine ⟨enough, fun rounds le => ?_⟩
  obtain ⟨_, none⟩ | ⟨papszDep, got, listed⟩ := get_cases rules pszDep
  · exact absurd candidate_there (none _)
  · obtain rfl := Option.some.inj (val_unique rules.ordered candidate_there listed)
    rw [depCheckCyclic, if_neg fun equal => other (strcmp_eq.mp equal), got]
    exact walks rounds le

/-- A balanced tree of the rules in this order. -/
def balanced : ℕ → List (Name × Option (List Name)) → Tree Name (Option (List Name))
  | 0, _ => .nil
  | height + 1, sorted =>
    match sorted.drop (sorted.length / 2) with
    | [] => .nil
    | (pszRule, papszDep) :: above =>
      let left := balanced height (sorted.take (sorted.length / 2))
      let right := balanced height above
      .node pszRule papszDep (max (rankOf left) (rankOf right) + 1) left right

/-- `a` -/
def candidate : Name := [97]

/-- `aA` and on. -/
def header (i : ℕ) : Name := [97 + Fin.ofNat 256 (i / 128), Fin.ofNat 256 (1 + i % 128)]

/-- `bbb`, which is no rule. -/
def leaf : Name := [98, 98, 98]

/-- `zz` -/
def looped : Name := [122, 122]

/-- `zzz` -/
def goal : Name := [122, 122, 122]

def headers : List Name := (List.range 255).map header

/-- A candidate that includes 255 headers with a dependent each and then one that includes itself
and the goal. -/
def many : List (Name × Option (List Name)) :=
  (candidate, some (headers ++ [looped])) :: headers.map (fun h => (h, some [leaf])) ++
    [(looped, some [looped, goal]), (goal, none)]

theorem many_ordered : Ordered (balanced 9 many) := by
  rw [Ordered, ← List.isChain_iff_pairwise]
  decide +kernel

def manyRules : Rules := ⟨balanced 9 many, many_ordered⟩

theorem many_entries : entries manyRules.pdepTree = many := by
  decide +kernel

/-- Both names have one to three characters, the second more of them. -/
def Longer (u v : Name) : Prop :=
  0 < List.length u ∧ List.length u < List.length v ∧ List.length v ≤ 3

instance (u v : Name) : Decidable (Longer u v) :=
  inferInstanceAs (Decidable (0 < List.length u ∧ List.length u < List.length v ∧ _))

theorem many_longer : ∀ e ∈ many, ∀ v ∈ e.2.getD [], Longer e.1 v ∨ e.1 = v := by
  decide +kernel

theorem manyRules_longer {u v : Name} (depends : manyRules.Depends u v) (ne : u ≠ v) :
    Longer u v := by
  obtain ⟨papszDep, there, member⟩ := depends
  rw [many_entries] at there
  exact (many_longer _ there v member).resolve_right ne

theorem manyRules_short : manyRules.Short := by
  intro path nodup chain
  rcases path with _ | ⟨a, _ | ⟨b, _ | ⟨c, _ | ⟨d, rest⟩⟩⟩⟩
  · exact Nat.zero_le 32
  · exact Nat.le_add_left 1 31
  · exact Nat.le_add_left 2 30
  · exact Nat.le_add_left 3 29
  · obtain ⟨ab, chain⟩ := List.isChain_cons_cons.mp chain
    obtain ⟨bc, chain⟩ := List.isChain_cons_cons.mp chain
    obtain ⟨cd, _⟩ := List.isChain_cons_cons.mp chain
    obtain ⟨a_new, nodup⟩ := List.nodup_cons.mp nodup
    obtain ⟨b_new, nodup⟩ := List.nodup_cons.mp nodup
    obtain ⟨c_new, _⟩ := List.nodup_cons.mp nodup
    have first := manyRules_longer ab fun same => a_new (same ▸ List.mem_cons_self)
    have second := manyRules_longer bc fun same => b_new (same ▸ List.mem_cons_self)
    have third := manyRules_longer cd fun same => c_new (same ▸ List.mem_cons_self)
    unfold Longer at first second third
    omega

theorem looped_mem : (looped, some [looped, goal]) ∈ entries manyRules.pdepTree := by
  rw [many_entries]
  exact List.mem_append_right _ List.mem_cons_self

theorem candidate_mem : (candidate, some (headers ++ [looped])) ∈ entries manyRules.pdepTree := by
  rw [many_entries]
  exact List.mem_cons_self

theorem manyRules_reaches : manyRules.Reaches candidate goal := by
  have first : manyRules.Depends candidate looped :=
    ⟨_, candidate_mem, List.mem_append_right _ List.mem_cons_self⟩
  have second : manyRules.Depends looped goal :=
    ⟨_, looped_mem, List.mem_cons_of_mem _ List.mem_cons_self⟩
  exact (Relation.ReflTransGen.single first).tail second

theorem headers_two : ∀ h ∈ headers, List.length h = 2 := by
  intro h among
  obtain ⟨i, _, rfl⟩ := List.mem_map.mp among
  rfl

theorem headers_nodup : headers.Nodup := by
  have chain : headers.IsChain (· < ·) := by decide +kernel
  exact (List.isChain_iff_pairwise.mp chain).imp fun less => ne_of_lt less

theorem headers_listed (h : Name) (among : h ∈ headers) :
    (h, some [leaf]) ∈ entries manyRules.pdepTree := by
  rw [many_entries]
  exact List.mem_append_left _ (List.mem_cons_of_mem _ (List.mem_map.mpr ⟨h, among, rfl⟩))

theorem many_leaf : ∀ e ∈ many, e.1 ≠ leaf := by
  decide +kernel

theorem leaf_no_list (papszDep : List Name) :
    (leaf, some papszDep) ∉ entries manyRules.pdepTree := by
  intro there
  rw [many_entries] at there
  exact many_leaf _ there rfl

theorem manyRules_ends : Ends manyRules goal candidate false := by
  have goal_new (h : Name) (among : h ∈ headers) : goal ≠ h := by
    rintro rfl
    cases headers_two goal among
  have candidate_new (h : Name) (among : h ∈ headers) : h ≠ candidate := by
    rintro rfl
    cases headers_two candidate among
  have looped_new : looped ∉ candidate :: headers := by decide +kernel
  have goal_leaf : goal ≠ leaf := by decide +kernel
  have goal_looped : goal ≠ looped := by decide +kernel
  have goal_candidate : goal ≠ candidate := by decide +kernel
  have count : headers.length = 255 := by rw [headers, List.length_map, List.length_range]
  exact full_history_ends candidate_mem count headers_nodup
    (fun h among => ⟨goal_new h among, headers_listed h among⟩) candidate_new goal_leaf
    leaf_no_list looped_mem looped_new goal_looped goal_candidate

theorem many_not_promised : ¬ ∀ (rules : Rules) (pszRule pszDep : Name), rules.Short →
    Promised rules pszRule pszDep := by
  intro all
  obtain ⟨rc, ⟨enough, ends⟩, exact_rc⟩ := all manyRules goal candidate manyRules_short
  obtain ⟨enough', ends'⟩ := manyRules_ends
  have result := ends (max enough enough') (le_max_left _ _)
  rw [ends' _ (le_max_right _ _)] at result
  have found := exact_rc.mpr manyRules_reaches
  rw [found] at result
  cases result

end Odin32.DepCyclic
