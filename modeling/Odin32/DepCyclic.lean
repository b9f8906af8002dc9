import Odin32.AvlTable
import Mathlib.Data.Fin.Basic
import Mathlib.Data.List.Lex
import Mathlib.Order.Compare
import Mathlib.Order.Fin.Basic
import Mathlib.Logic.Relation

/-! # Cyclic dependencies

`depCheckCyclic`: the walk through the rules a candidate depends on, with a stack of 32 positions in
dependency lists and a history of 256 rules that have been walked. A rule is found by its name in
the AVL tree of the rules. -/

set_option autoImplicit false

namespace Odin32.DepCyclic
open Odin32.RankedTree Odin32.Avl

/-- A string up to its terminator. -/
def Name : Type := List (Fin 256)

instance : LinearOrder Name := inferInstanceAs (LinearOrder (List (Fin 256)))

def depth : ℕ := 32

def history : ℕ := 256

def strcmp (psz1 psz2 : Name) : Ordering := cmp psz1 psz2

theorem strcmp_eq {psz1 psz2 : Name} : strcmp psz1 psz2 = .eq ↔ psz1 = psz2 := cmp_eq_eq_iff _ _

theorem strcmp_lt {psz1 psz2 : Name} : strcmp psz1 psz2 = .lt ↔ psz1 < psz2 := cmp_eq_lt_iff _ _

theorem strcmp_gt {psz1 psz2 : Name} : strcmp psz1 psz2 = .gt ↔ psz2 < psz1 := cmp_eq_gt_iff _ _

/-- `pdepTree`: each rule with the names at its `papszDep`, if it is not `NULL`. -/
structure Rules where
  pdepTree : Tree Name (Option (List Name))
  ordered : Ordered pdepTree

/-- The rule of a name, if it has dependents. -/
def Rules.get (rules : Rules) (psz : Name) : Option (Name × List Name) :=
  match avlGet psz rules.pdepTree with
  | some (pszRule, some papszDep) => some (pszRule, papszDep)
  | _ => none

/-- The entry of the history at an index. -/
def entryAt (apszHistory : List Name) (j : ℤ) : Option Name :=
  if 0 ≤ j then apszHistory[j.toNat]? else none

/-- The binary search: the last entry looked at, and how the name compares to it. -/
def search (pszRule : Name) (apszHistory : List Name) : ℕ → ℤ → ℤ → ℤ → Option (ℤ × Ordering)
  | 0, _, _, _ => none
  | rounds + 1, iStart, iEnd, j =>
    match entryAt apszHistory j with
    | none => none
    | some psz =>
      let iCmp := strcmp pszRule psz
      if iCmp ≠ .eq ∧ iEnd ≠ iStart then
        let iEnd' := if iCmp = .lt then j - 1 else iEnd
        let iStart' := if iCmp = .lt then iStart else j + 1
        if iStart' > iEnd' then some (j, iCmp)
        else search pszRule apszHistory rounds iStart' iEnd' ((iStart' + iEnd') / 2)
      else some (j, iCmp)

/-- The search through the whole history. -/
def inHistory (pszRule : Name) (apszHistory : List Name) : Option (ℤ × Ordering) :=
  search pszRule apszHistory apszHistory.length 0 (apszHistory.length - 1)
    (apszHistory.length / 2)

/-- Moves the entries from `j` on up and stores the name; `none` where a store lies outside. -/
def insertAt (apszHistory : List Name) (j : ℤ) (pszRule : Name) : Option (List Name) :=
  if 0 ≤ j ∧ j ≤ apszHistory.length ∧ apszHistory.length < history then
    some (apszHistory.insertIdx j.toNat pszRule)
  else none

/-- Push into history, while there is room. -/
def pushHistory (apszHistory : List Name) (j : ℤ) (iCmp : Ordering) (pszRule : Name) :
    Option (List Name) :=
  if apszHistory.length < history then
    insertAt apszHistory (if iCmp = .gt then j + 1 else j) pszRule
  else some apszHistory

/-- Push on to the stack; `none` where the store lies outside. -/
def pushStack (appsz : List (List Name)) (ppsz : List Name) : Option (List (List Name)) :=
  if appsz.length < depth then some (ppsz :: appsz) else none

structure State where
  /-- The names from the current position to the end of its list. -/
  ppsz : List Name
  /-- The stack, its top first. -/
  appsz : List (List Name)
  apszHistory : List Name

inductive Outcome where
  | returns (rc : Bool)
  /-- An access outside of the stack or of the history. -/
  | outside
deriving DecidableEq

inductive Round where
  | goesOn (s : State)
  | ends (outcome : Outcome)

/-- The history is searched for a rule with dependents, and its list is next if it is not there. -/
def enter (s : State) (ppsz : List Name) (pszRule : Name) (papszDep : List Name) : Round :=
  match inHistory pszRule s.apszHistory with
  | none => .ends .outside
  | some (_, .eq) => .goesOn { s with ppsz := ppsz }
  | some (j, iCmp) =>
    match pushHistory s.apszHistory j iCmp pszRule, pushStack s.appsz ppsz with
    | some apszHistory, some appsz => .goesOn ⟨papszDep, appsz, apszHistory⟩
    | _, _ => .ends .outside

/-- One round of the inner loop, or the end of a list. -/
def round (rules : Rules) (pszRule : Name) (s : State) : Round :=
  match s.ppsz with
  | [] =>
    match s.appsz with
    | [] => .ends (.returns false)
    | top :: appsz => .goesOn { s with ppsz := top, appsz := appsz }
  | psz :: ppsz =>
    if strcmp pszRule psz = .eq then .ends (.returns true)
    else
      match rules.get psz with
      | none => .goesOn { s with ppsz := ppsz }
      | some (pszFound, papszDep) =>
        if s.appsz.length ≥ depth then .ends (.returns false)
        else enter s ppsz pszFound papszDep

/-- So many rounds; `none` if it is still not over. -/
def walk (rules : Rules) (pszRule : Name) : ℕ → State → Option Outcome
  | 0, _ => none
  | rounds + 1, s =>
    match round rules pszRule s with
    | .goesOn s' => walk rules pszRule rounds s'
    | .ends outcome => some outcome

def depCheckCyclic (rules : Rules) (pszRule pszDep : Name) (rounds : ℕ) : Option Outcome :=
  if strcmp pszRule pszDep = .eq then some (.returns true)
  else
    match rules.get pszDep with
    | none => some (.returns false)
    | some (pszFound, papszDep) => walk rules pszRule rounds ⟨papszDep, [], [pszFound]⟩

/-! ## What is promised -/

/-- The name is in the stored dependency list of the rule. -/
def Rules.Depends (rules : Rules) (rule dep : Name) : Prop :=
  ∃ papszDep, (rule, some papszDep) ∈ entries rules.pdepTree ∧ dep ∈ papszDep

def Rules.Reaches (rules : Rules) : Name → Name → Prop := Relation.ReflTransGen rules.Depends

/-- Simple paths have at most 32 nodes. -/
def Rules.Short (rules : Rules) : Prop :=
  ∀ path : List Name, path.Nodup → path.IsChain rules.Depends → path.length ≤ 32

/-- The walk comes to an end with this result, whatever number of rounds more is allowed. -/
def Ends (rules : Rules) (pszRule pszDep : Name) (rc : Bool) : Prop :=
  ∃ enough, ∀ rounds, enough ≤ rounds →
    depCheckCyclic rules pszRule pszDep rounds = some (.returns rc)

/-- `TRUE` exactly for a candidate from which the rule is reached. -/
def Promised (rules : Rules) (pszRule pszDep : Name) : Prop :=
  ∃ rc, Ends rules pszRule pszDep rc ∧ (rc = true ↔ rules.Reaches pszDep pszRule)

/-! ## When it holds -/

/-- The rules with dependents that are reached fit in the history. -/
def Rules.Few (rules : Rules) (pszDep : Name) : Prop :=
  ∃ all : List Name, all.length ≤ history ∧
    ∀ rule papszDep, rules.Reaches pszDep rule →
      (rule, some papszDep) ∈ entries rules.pdepTree → rule ∈ all

/-- No rule that is reached depends on itself through others. -/
def Rules.Acyclic (rules : Rules) (pszDep : Name) : Prop :=
  ∀ rule, rules.Reaches pszDep rule → ¬ Relation.TransGen rules.Depends rule rule

end Odin32.DepCyclic
