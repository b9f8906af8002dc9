import Odin32.LinearListRun
import Mathlib.Data.List.Forall2

/-! # Symbolic links of device names

The table of `handlenames.cpp`: a linear list of link records. The records are blocks of their
own; a link and its target live and die with their record. -/

set_option autoImplicit false

namespace Odin32.HandleNames

open LinearList LinkedList

abbrev Ptr := ℕ

/-- The bytes in front of a NUL; their number is an `int`. -/
structure CString where
  bytes : List UInt8
  noNul : ∀ b ∈ bytes, b ≠ 0
  short : bytes.length < 0x80000000
deriving DecidableEq

def CString.strlen (s : CString) : ℕ := s.bytes.length

structure HandleName where
  pszTarget : CString
  ulTargetLength : ℕ
  pszSymbolicLink : CString
  ulSymbolicLinkLength : ℕ
  target_length : ulTargetLength = pszTarget.strlen
  link_length : ulSymbolicLinkLength = pszSymbolicLink.strlen
deriving DecidableEq

/-- What `addSymbolicLink` fills in. -/
def HandleName.of (link target : CString) : HandleName :=
  ⟨target, target.strlen, link, link.strlen, rfl, rfl⟩

structure State where
  pSymbolicLinks : CLinearList Ptr
  names : Ptr → Option HandleName

def new : State := ⟨CLinearList.new, fun _ => none⟩

namespace State

/-- The loops over `getFirst` and `getNext` that return at the first record with `stop`. -/
def findFrom (s : State) (stop : HandleName → Bool) : ℕ → Option Addr → Option (Option Ptr)
  | _, none => some none
  | 0, some _ => none
  | fuel + 1, some pLE => do
    let e ← s.pSymbolicLinks.heap pLE
    let name ← s.names e.pObject
    if stop name then return some e.pObject else findFrom s stop fuel e.pNext

/-- Among as many entries as were ever allocated. -/
def find (s : State) (stop : HandleName → Bool) : Option (Option Ptr) :=
  s.findFrom stop s.pSymbolicLinks.allocated s.pSymbolicLinks.pFirst

def findSymbolicLinkExact (s : State) (pszSymbolicLink : CString) : Option (Option Ptr) :=
  s.find fun name => name.pszSymbolicLink == pszSymbolicLink

/-- What memory a call of `addSymbolicLink` gets: a record with both strings or not, and an
entry of the list or not. -/
structure Memory where
  name : Option Ptr
  entry : Option Addr

/-- Whether the list got an entry for the record is not asked. -/
def addSymbolicLink (s : State) (pszSymbolicLink pszTarget : CString) (mem : Memory) :
    Option (State × Bool) := do
  match ← s.findSymbolicLinkExact pszSymbolicLink with
  | some p =>
    let name ← s.names p
    return (s, name.pszTarget == pszTarget)
  | none =>
    match mem.name with
    | none => return (s, false)
    | some p =>
      let links ← s.pSymbolicLinks.addFirst p mem.entry
      let name := HandleName.of pszSymbolicLink pszTarget
      return (⟨links, Function.update s.names p (some name)⟩, true)

def removeSymbolicLink (s : State) (pszSymbolicLink : CString) : Option (State × Bool) := do
  match ← s.findSymbolicLinkExact pszSymbolicLink with
  | none => return (s, false)
  | some p =>
    let links ← s.pSymbolicLinks.removeObject p
    return (⟨links, Function.update s.names p none⟩, true)

/-- The loop of `removeTarget`. Its body nowhere goes on to another entry. -/
def removeTargetFrom (pszTarget : CString) :
    ℕ → State → Option Addr → Bool → Except Trap (State × Bool)
  | _, s, none, rc => .ok (s, rc)
  | 0, _, some _, _ => .error .endless
  | fuel + 1, s, some pLE, rc =>
    match (s.pSymbolicLinks.heap pLE).bind fun e => s.names e.pObject with
    | none => .error .dangling
    | some name =>
      if name.pszTarget = pszTarget then
        match s.pSymbolicLinks.removeElement pLE with
        | none => .error .dangling
        | some links =>
          removeTargetFrom pszTarget fuel { s with pSymbolicLinks := links } (some pLE) true
      else removeTargetFrom pszTarget fuel s (some pLE) rc

def removeTarget (s : State) (pszTarget : CString) (fuel : ℕ) : Except Trap (State × Bool) :=
  removeTargetFrom pszTarget fuel s s.pSymbolicLinks.pFirst false

end State

/-! ## Tables -/

/-- The list of entries and the records they are for. -/
structure TableOf (s : State) (l : Entries Ptr) (table : List HandleName) : Prop where
  holds : Holds s.pSymbolicLinks l
  names : List.Forall₂ (fun x name => s.names x.2 = some name) l table
  nodup : (l.map Prod.snd).Nodup

/-- The links of a state, the one that was added last in front. -/
def Table (s : State) (table : List HandleName) : Prop := ∃ l, TableOf s l table

theorem table_new : Table new [] := ⟨[], holds_new, List.Forall₂.nil, List.nodup_nil⟩

variable {s s' : State} {table : List HandleName}

/-- A search of a table either meets no record it stops at, or the first one. -/
def Searched (s : State) (stop : HandleName → Bool) (l : Entries Ptr) (table : List HandleName)
    (found : Option Ptr) : Prop :=
  (found = none ∧ ∀ name ∈ table, stop name = false) ∨
    ∃ l₁ x l₂ t₁ name t₂, l = l₁ ++ x :: l₂ ∧ table = t₁ ++ name :: t₂ ∧
      List.Forall₂ (fun x name => s.names x.2 = some name) l₁ t₁ ∧
      List.Forall₂ (fun x name => s.names x.2 = some name) l₂ t₂ ∧
      s.names x.2 = some name ∧ (∀ n ∈ t₁, stop n = false) ∧ stop name = true ∧ found = some x.2

theorem findFrom_spec {l : Entries Ptr} {head : Option Addr} {fuel : ℕ}
    (chain : Chain LinearListEntry.pNext s.pSymbolicLinks.heap head (l.map Prod.fst))
    (objects : ∀ x ∈ l, (s.pSymbolicLinks.heap x.1).map LinearListEntry.pObject = some x.2)
    (names : List.Forall₂ (fun x name => s.names x.2 = some name) l table)
    (stop : HandleName → Bool) (enough : l.length ≤ fuel) :
    ∃ found, s.findFrom stop fuel head = some found ∧ Searched s stop l table found := by
  induction names generalizing head fuel with
  | nil =>
    obtain rfl : head = none := chain
    refine ⟨none, by cases fuel <;> rfl, Or.inl ⟨rfl, ?_⟩⟩
    intro name mem
    cases mem
  | @cons x name l table here names ih =>
    obtain ⟨rfl, e, at_x, tail⟩ := chain
    obtain ⟨fuel, rfl⟩ : ∃ k, fuel = k + 1 :=
      Nat.exists_eq_succ_of_ne_zero (Nat.ne_of_gt (Nat.lt_of_lt_of_le (Nat.succ_pos _) enough))
    have object := objects x (List.mem_cons_self ..)
    rw [at_x] at object
    have object' : e.pObject = x.2 := Option.some.inj object
    cases stops : stop name with
    | true =>
      refine ⟨some x.2, ?_, Or.inr ⟨[], x, l, [], name, table, rfl, rfl, List.Forall₂.nil, names,
        here, ?_, stops, rfl⟩⟩
      · simp only [State.findFrom, at_x, object', here, Option.bind_eq_bind, Option.bind_some,
          stops]
        rfl
      · intro n mem
        cases mem
    | false =>
      obtain ⟨found, rest, searched⟩ := ih tail
        (fun y mem => objects y (List.mem_cons_of_mem x mem)) (Nat.le_of_succ_le_succ enough)
      refine ⟨found, ?_, ?_⟩
      · simp only [State.findFrom, at_x, object', here, Option.bind_eq_bind, Option.bind_some,
          stops]
        exact rest
      · rcases searched with ⟨none, all⟩ | ⟨l₁, y, l₂, t₁, n, t₂, rfl, rfl, names₁, names₂, at_y,
          before, stopped, some⟩
        · exact Or.inl ⟨none, List.forall_mem_cons.mpr ⟨stops, all⟩⟩
        · exact Or.inr ⟨x :: l₁, y, l₂, name :: t₁, n, t₂, rfl, rfl,
            List.Forall₂.cons here names₁, names₂, at_y,
            List.forall_mem_cons.mpr ⟨stops, before⟩, stopped, some⟩

theorem find_spec {l : Entries Ptr} (of : TableOf s l table) (stop : HandleName → Bool) :
    ∃ found, s.find stop = some found ∧ Searched s stop l table found :=
  findFrom_spec of.holds.1.forward of.holds.1.objects of.names stop of.holds.2

/-! ## What the calls do to a table -/

/-- The table with one link more, unless the list had no entry for it. -/
def linked (table : List HandleName) (link target : CString) (mem : State.Memory) :
    List HandleName :=
  if mem.name.isSome ∧ mem.entry.isSome ∧ ∀ name ∈ table, name.pszSymbolicLink ≠ link
  then HandleName.of link target :: table else table

def unlinked (table : List HandleName) (link : CString) : List HandleName :=
  table.eraseP fun name => name.pszSymbolicLink == link

/-- `malloc` gives memory that is not in use. -/
def FreshMemory (s : State) (mem : State.Memory) : Prop :=
  (∀ p, mem.name = some p → s.names p = none) ∧ Fresh s.pSymbolicLinks mem.entry

theorem names_update {l : Entries Ptr} {names : Ptr → Option HandleName} {p : Ptr}
    (off : p ∉ l.map Prod.snd) (value : Option HandleName)
    (all : List.Forall₂ (fun x name => names x.2 = some name) l table) :
    List.Forall₂ (fun x name => Function.update names p value x.2 = some name) l table := by
  induction all with
  | nil => exact List.Forall₂.nil
  | @cons x name l table here _ ih =>
    rw [List.map_cons, List.mem_cons, not_or] at off
    refine List.Forall₂.cons ?_ (ih off.2)
    rw [Function.update_of_ne (Ne.symm off.1), here]

theorem names_live {l : Entries Ptr} {names : Ptr → Option HandleName} {p : Ptr}
    (all : List.Forall₂ (fun x name => names x.2 = some name) l table)
    (mem : p ∈ l.map Prod.snd) : ∃ name, names p = some name := by
  induction all with
  | nil => cases mem
  | @cons x name l table here _ ih =>
    rcases List.mem_cons.mp mem with rfl | later
    · exact ⟨name, here⟩
    · exact ih later

theorem addSymbolicLink_spec (is : Table s table) (link target : CString) {mem : State.Memory}
    (fresh : FreshMemory s mem) : ∃ s' rc, s.addSymbolicLink link target mem = some (s', rc) ∧
      Table s' (linked table link target mem) := by
  obtain ⟨l, of⟩ := is
  obtain ⟨found, searched, what⟩ := find_spec of fun name => name.pszSymbolicLink == link
  rcases what with ⟨rfl, absent⟩ |
    ⟨l₁, x, l₂, t₁, name, t₂, rfl, rfl, names₁, names₂, here, before, stopped, rfl⟩
  · have new : ∀ name ∈ table, name.pszSymbolicLink ≠ link :=
      fun name at_name => by simpa using absent name at_name
    obtain ⟨name, entry⟩ := mem
    cases name with
    | none =>
      refine ⟨s, false, ?_, l, ?_⟩
      · simp only [State.addSymbolicLink, State.findSymbolicLinkExact, searched]
        rfl
      · simpa [linked] using of
    | some p =>
      have off : p ∉ l.map Prod.snd := by
        intro at_p
        obtain ⟨name, here⟩ := names_live of.names at_p
        exact absurd (here.symm.trans (fresh.1 p rfl)) (by simp)
      have names := names_update off (some (HandleName.of link target)) of.names
      cases entry with
      | none =>
        obtain ⟨links, added, holds⟩ := 
          step_holds of.holds (show Offered _ l (.addFirst p none) from fresh.2) trivial
        have same : linked table link target ⟨some p, none⟩ = table := by simp [linked]
        refine ⟨⟨links, Function.update s.names p (some (HandleName.of link target))⟩, true, ?_,
          l, holds, by rwa [same], of.nodup⟩
        have added' : s.pSymbolicLinks.addFirst p none = some links := added
        simp only [State.addSymbolicLink, State.findSymbolicLinkExact, searched, added',
          Option.bind_eq_bind, Option.bind_some]
        rfl
      | some a =>
        obtain ⟨links, added, holds⟩ :=
          step_holds of.holds (show Offered _ l (.addFirst p (some a)) from fresh.2) trivial
        have added' : s.pSymbolicLinks.addFirst p (some a) = some links := added
        have grown : linked table link target ⟨some p, some a⟩ =
            HandleName.of link target :: table := by
          rw [linked, if_pos ⟨rfl, rfl, new⟩]
        refine ⟨⟨links, Function.update s.names p (some (HandleName.of link target))⟩, true, ?_,
          (a, p) :: l, holds, ?_, List.nodup_cons.mpr ⟨off, of.nodup⟩⟩
        · simp only [State.addSymbolicLink, State.findSymbolicLinkExact, searched, added',
            Option.bind_eq_bind, Option.bind_some]
          rfl
        · rw [grown]
          exact List.Forall₂.cons (Function.update_self ..) names
  · have same : linked (t₁ ++ name :: t₂) link target mem = t₁ ++ name :: t₂ := by
      rw [linked, if_neg]
      rintro ⟨-, -, all⟩
      exact all name (by simp) (by simpa using stopped)
    refine ⟨s, name.pszTarget == target, ?_, ?_⟩
    · simp only [State.addSymbolicLink, State.findSymbolicLinkExact, searched, here,
        Option.bind_eq_bind, Option.bind_some]
      rfl
    · rw [same]
      exact ⟨_, of⟩

theorem removeSymbolicLink_spec (is : Table s table) (link : CString) :
    ∃ s' rc, s.removeSymbolicLink link = some (s', rc) ∧ Table s' (unlinked table link) := by
  obtain ⟨l, of⟩ := is
  obtain ⟨found, searched, what⟩ := find_spec of fun name => name.pszSymbolicLink == link
  rcases what with ⟨rfl, absent⟩ |
    ⟨l₁, x, l₂, t₁, name, t₂, rfl, rfl, names₁, names₂, here, before, stopped, rfl⟩
  · refine ⟨s, false, ?_, l, ?_⟩
    · simp only [State.removeSymbolicLink, State.findSymbolicLinkExact, searched,
        Option.bind_eq_bind, Option.bind_some]
      rfl
    · rw [unlinked, List.eraseP_of_forall_not fun name mem => by simp [absent name mem]]
      exact of
  · have nodup := of.nodup
    rw [List.map_append, List.map_cons] at nodup
    have off : x.2 ∉ (l₁ ++ l₂).map Prod.snd := by
      rw [List.map_append]
      exact (List.nodup_cons.mp (List.nodup_middle.mp nodup)).1
    obtain ⟨links, removed, holds⟩ :=
      step_holds of.holds (show Offered _ _ (.removeObject x.2) from trivial) trivial
    have removed' : s.pSymbolicLinks.removeObject x.2 = some links := removed
    have erased : expected (l₁ ++ x :: l₂) (.removeObject x.2) = l₁ ++ l₂ := by
      have before : ∀ y ∈ l₁, ¬ decide (y.2 = x.2) = true := by
        intro y mem eq
        exact off (of_decide_eq_true eq ▸ List.mem_map_of_mem (List.mem_append_left l₂ mem))
      rw [expected, List.eraseP_append_right _ before, List.eraseP_cons_of_pos (by simp)]
    have dropped : unlinked (t₁ ++ name :: t₂) link = t₁ ++ t₂ := by
      rw [unlinked, List.eraseP_append_right _ (fun n mem => by simp [before n mem]),
        List.eraseP_cons_of_pos (p := fun name : HandleName => name.pszSymbolicLink == link)
          stopped]
    rw [erased] at holds
    refine ⟨⟨links, Function.update s.names x.2 none⟩, true, ?_, l₁ ++ l₂, holds, ?_, ?_⟩
    · simp only [State.removeSymbolicLink, State.findSymbolicLinkExact, searched, removed',
        Option.bind_eq_bind, Option.bind_some]
      rfl
    · rw [dropped]
      exact names_update off none (List.rel_append names₁ names₂)
    · rw [List.map_append]
      exact (List.nodup_cons.mp (List.nodup_middle.mp nodup)).2

/-! ## Runs -/

inductive Call where
  | addSymbolicLink (pszSymbolicLink pszTarget : CString) (mem : State.Memory)
  | removeSymbolicLink (pszSymbolicLink : CString)

def Call.step (s : State) : Call → Option State
  | .addSymbolicLink link target mem => (s.addSymbolicLink link target mem).map Prod.fst
  | .removeSymbolicLink link => (s.removeSymbolicLink link).map Prod.fst

def run : List Call → State → Option State
  | [], s => some s
  | call :: calls, s => (call.step s).bind (run calls)

def Call.Fresh (s : State) : Call → Prop
  | .addSymbolicLink _ _ mem => FreshMemory s mem
  | .removeSymbolicLink _ => True

def RunFresh : State → List Call → Prop
  | _, [] => True
  | s, call :: calls => call.Fresh s ∧ ∀ s', call.step s = some s' → RunFresh s' calls

/-- The links after some calls. -/
def tableAfter (table : List HandleName) : List Call → List HandleName
  | [] => table
  | .addSymbolicLink link target mem :: calls =>
    tableAfter (linked table link target mem) calls
  | .removeSymbolicLink link :: calls => tableAfter (unlinked table link) calls

theorem run_table {calls : List Call} (is : Table s table) (fresh : RunFresh s calls) :
    ∃ s', run calls s = some s' ∧ Table s' (tableAfter table calls) := by
  induction calls generalizing s table with
  | nil => exact ⟨s, rfl, is⟩
  | cons call calls ih =>
    obtain ⟨here, later⟩ := fresh
    cases call with
    | addSymbolicLink link target mem =>
      obtain ⟨s', rc, added, is'⟩ := addSymbolicLink_spec is link target here
      have stepped : (Call.addSymbolicLink link target mem).step s = some s' := by
        rw [Call.step, added]
        rfl
      rw [run, stepped]
      exact ih is' (later s' stepped)
    | removeSymbolicLink link =>
      obtain ⟨s', rc, removed, is'⟩ := removeSymbolicLink_spec is link
      have stepped : (Call.removeSymbolicLink link).step s = some s' := by
        rw [Call.step, removed]
        rfl
      rw [run, stepped]
      exact ih is' (later s' stepped)

/-! ## Removing by target -/

/-- What `removeTarget` is for. -/
def RemovesTarget (s : State) (pszTarget : CString) : Prop :=
  ∃ fuel s' rc, s.removeTarget pszTarget fuel = .ok (s', rc) ∧
    ∀ table, Table s table →
      Table s' (table.filter fun name => decide (name.pszTarget ≠ pszTarget)) ∧
      (rc = true ↔ ∃ name ∈ table, name.pszTarget = pszTarget)

theorem removeTargetFrom_ne_ok (pszTarget : CString) (fuel : ℕ) (s : State) (pLE : Addr)
    (rc : Bool) (s' : State) (rc' : Bool) :
    State.removeTargetFrom pszTarget fuel s (some pLE) rc ≠ .ok (s', rc') := by
  induction fuel generalizing s rc with
  | zero => simp [State.removeTargetFrom]
  | succ fuel ih =>
    rw [State.removeTargetFrom]
    cases (s.pSymbolicLinks.heap pLE).bind fun e => s.names e.pObject with
    | none => simp
    | some name =>
      by_cases isTarget : name.pszTarget = pszTarget
      · simp only [if_pos isTarget]
        cases s.pSymbolicLinks.removeElement pLE with
        | none => simp
        | some links => exact ih { s with pSymbolicLinks := links } true
      · simp only [if_neg isTarget]
        exact ih s rc

theorem removesTarget_iff_empty (s : State) (pszTarget : CString) :
    RemovesTarget s pszTarget ↔ s.pSymbolicLinks.pFirst = none := by
  constructor
  · rintro ⟨fuel, s', rc, removed, -⟩
    cases first : s.pSymbolicLinks.pFirst with
    | none => rfl
    | some pLE =>
      rw [State.removeTarget, first] at removed
      exact absurd removed (removeTargetFrom_ne_ok pszTarget fuel s pLE false s' rc)
  · intro first
    refine ⟨0, s, false, by rw [State.removeTarget, first]; rfl, ?_⟩
    rintro table' ⟨l, of⟩
    have empty := of.holds.1.first
    rw [first] at empty
    obtain rfl : l = [] := List.map_eq_nil_iff.mp (List.head?_eq_none_iff.mp empty.symm)
    obtain rfl : table' = [] := List.forall₂_nil_left_iff.mp of.names
    exact ⟨⟨[], of⟩, by simp⟩

/-- Links are removed by their target exactly when there is none. -/
theorem removesTarget_iff (calls : List Call) (fresh : RunFresh new calls) :
    ∃ s, run calls new = some s ∧ Table s (tableAfter [] calls) ∧
      ∀ pszTarget, RemovesTarget s pszTarget ↔ s.pSymbolicLinks.pFirst = none := by
  obtain ⟨s, ran, is⟩ := run_table table_new fresh
  exact ⟨s, ran, is, removesTarget_iff_empty s⟩

theorem letter_noNul {letter : UInt8} (other : letter ≠ 0) : ∀ b ∈ [letter], b ≠ 0 := by
  intro b among
  rw [List.mem_singleton.mp among]
  exact other

/-- The names `C` and `N`. -/
def letterC : CString := ⟨[67], letter_noNul (of_decide_eq_true rfl), of_decide_eq_true rfl⟩
def letterN : CString := ⟨[78], letter_noNul (of_decide_eq_true rfl), of_decide_eq_true rfl⟩

def oneLink : List Call := [.addSymbolicLink letterC letterN ⟨some 1, some 2⟩]

theorem oneLink_fresh : RunFresh new oneLink := by
  refine ⟨⟨?_, ?_⟩, fun _ _ => trivial⟩
  · rintro p ⟨⟩
    rfl
  · rintro a ⟨⟩
    rfl

theorem removesTarget_iff_oneLink :
    ∃ s, run oneLink new = some s ∧ Table s (tableAfter [] oneLink) ∧
      ∀ pszTarget, RemovesTarget s pszTarget ↔ s.pSymbolicLinks.pFirst = none :=
  removesTarget_iff oneLink oneLink_fresh

/-- The only link has the target, and is read again after it was freed. -/
theorem oneLink_not_removed : ¬ ∀ calls, RunFresh new calls →
    ∃ s, run calls new = some s ∧ ∀ pszTarget, RemovesTarget s pszTarget := by
  intro all
  obtain ⟨s, ran, removes⟩ := all oneLink oneLink_fresh
  have empty := (removesTarget_iff_empty s letterN).mp (removes letterN)
  cases ran
  cases empty

end Odin32.HandleNames
