import Odin32.Exceptions
import Odin32.Walk
import Mathlib.Order.Interval.Finset.Nat

/-! # Dispatch over any chain

`RtlDispatchException` walks whatever the links say. It reads a link before it looks at the
frame's address, and it knows only one cycle, the frame that links to itself. So it is
sound on the chains that stay on the stack up to their end and run into no longer cycle,
and on no others. -/

set_option autoImplicit false

namespace Odin32.Exceptions

open Walk

/-- The address ends the loop. -/
def Mark (frame : Addr) : Prop := frame = 0 ∨ LastPage frame

instance (frame : Addr) : Decidable (Mark frame) := inferInstanceAs (Decidable (_ ∨ _))

/-- The frame a frame links to, if it is another one. -/
def Env.next (env : Env) (frame : Addr) : Option Addr :=
  if Mark frame ∨ frame = env.prevFrame frame then none else some (env.prevFrame frame)

/-- The links lead from the first frame to the second. -/
def Env.Leads (env : Env) : Addr → Addr → Prop := Relation.ReflTransGen (Step env.next)

/-- Up to its mark the chain stays on the stack, and no frame of it leads back to itself,
a frame with a link to itself apart. -/
structure Env.Sound (env : Env) (except : Addr) : Prop where
  onStack : ∀ frame, env.Leads except frame → ¬ Mark frame → env.OnStack frame
  acyclic : ∀ frame, env.Leads except frame → ¬ Relation.TransGen (Step env.next) frame frame

/-- What is asked of a dispatch that has come to its end. -/
structure Survives (env : Env) (except : Addr) (out : Dispatched) : Prop where
  reads : ∀ frame, .read frame ∈ out.events → env.OnStack frame
  once : (calledFrames out.events).Nodup
  order : ∃ n, (calledFrames out.events).Sublist
    ((List.range n).map fun i => env.prevFrame^[i] except)

/-- The stores of a record lie in its table. -/
def ExceptionRecord.Inside (record : ExceptionRecord) : Prop :=
  ∀ store ∈ record.stores, store.1 < maximumParameters

theorem next_follows {env : Env} (c d : Addr) (link : env.next c = some d) :
    d = env.prevFrame c := by
  unfold Env.next at link
  split at link
  · cases link
  · exact (Option.some.inj link).symm

section Search

variable {env : Env}
  (search : ∀ h flags frame, (env.handlers h flags frame).1 = exceptionContinueSearch)

include search

theorem excCallHandler_search (flags : Flags) (frame : Addr) :
    (excCallHandler env flags frame).1 = exceptionContinueSearch ∧
    (excCallHandler env flags frame).2.2 = callEvents env flags frame := by
  unfold excCallHandler callEvents
  split
  · exact ⟨search _ _ _, rfl⟩
  · exact ⟨rfl, rfl⟩

theorem rtlDispatchFrom_succ (fuel : ℕ) (frame nestedFrame : Addr) (flags : Flags) (rc : ℕ) :
    ∃ nestedFrame' flags', rtlDispatchFrom env (fuel + 1) frame nestedFrame flags rc =
      if Mark frame then some ⟨rc, flags, []⟩
      else if frame = env.prevFrame frame then some ⟨0, flags, [.read frame]⟩
      else if ¬ env.OnStack frame then some ⟨rc, flags ||| ehStackInvalid, [.read frame]⟩
      else
        (rtlDispatchFrom env fuel (env.prevFrame frame) nestedFrame' flags'
            exceptionContinueSearch).map fun rest =>
          { rest with events := .read frame :: callEvents env flags frame ++ rest.events } := by
  obtain ⟨rc_eq, called_eq⟩ := excCallHandler_search search flags frame
  refine ⟨if frame = nestedFrame then 0 else nestedFrame,
    if frame = nestedFrame then flags &&& ~~~ehNestedCall else flags, ?_⟩
  rw [rtlDispatchFrom]
  by_cases mark : Mark frame
  · have atEnd : frame = 0 ∨ LastPage frame := mark
    rw [if_pos atEnd, if_pos mark]
  · have goesOn : ¬ (frame = 0 ∨ LastPage frame) := mark
    rw [if_neg goesOn, if_neg mark]
    split
    · rfl
    · split
      · rfl
      · simp [rc_eq, called_eq, exceptionContinueSearch, exceptionContinueExecution,
          exceptionNestedException]

theorem dispatch_of_path {fuel : ℕ} {frame : Addr} {frames : List Addr} (nestedFrame : Addr)
    (flags : Flags) (rc : ℕ) (walked : path env.next fuel frame = some frames)
    (onStack : ∀ f ∈ frames, ¬ Mark f → env.OnStack f) :
    ∃ out, rtlDispatchFrom env fuel frame nestedFrame flags rc = some out ∧
      (∀ f, .read f ∈ out.events → f ∈ frames ∧ ¬ Mark f) ∧
      (calledFrames out.events).Sublist frames := by
  induction fuel generalizing frame nestedFrame flags rc frames with
  | zero => cases walked
  | succ fuel ih =>
    obtain ⟨nestedFrame', flags', eq⟩ :=
      rtlDispatchFrom_succ search fuel frame nestedFrame flags rc
    rw [eq]
    have here := path_head walked
    by_cases mark : Mark frame
    · rw [if_pos mark]
      refine ⟨_, rfl, ?_, List.nil_sublist _⟩
      intro f mem
      cases mem
    rw [if_neg mark]
    by_cases self : frame = env.prevFrame frame
    · rw [if_pos self]
      refine ⟨_, rfl, ?_, List.nil_sublist _⟩
      intro f mem
      have same : f = frame := by simpa using mem
      rw [same]
      exact ⟨here, mark⟩
    rw [if_neg self, if_neg (not_not_intro (onStack frame here mark))]
    have link : env.next frame = some (env.prevFrame frame) := by
      unfold Env.next
      rw [if_neg (not_or.mpr ⟨mark, self⟩)]
    rcases path_cases walked with ⟨stop, -⟩ | ⟨next, rest, link', walked', rfl⟩
    · exact absurd (stop.symm.trans link) (by simp)
    · obtain rfl := Option.some.inj (link.symm.trans link')
      obtain ⟨out, ran, reads, calls⟩ := ih nestedFrame' flags'
        exceptionContinueSearch walked' fun f mem => onStack f (List.mem_cons_of_mem frame mem)
      rw [ran]
      refine ⟨_, rfl, ?_, ?_⟩
      · intro f mem
        unfold callEvents at mem
        rcases List.mem_append.mp mem with first | later
        · have same : f = frame := by
            split at first <;> simpa using first
          rw [same]
          exact ⟨here, mark⟩
        · exact ⟨List.mem_cons_of_mem frame (reads f later).1, (reads f later).2⟩
      · unfold calledFrames callEvents
        rw [List.filterMap_append]
        split
        · exact List.Sublist.cons_cons frame calls
        · exact List.Sublist.cons frame calls

theorem path_of_dispatch {fuel : ℕ} {frame nestedFrame : Addr} {flags : Flags} {rc : ℕ}
    {out : Dispatched} (ran : rtlDispatchFrom env fuel frame nestedFrame flags rc = some out)
    (reads : ∀ f, .read f ∈ out.events → env.OnStack f) :
    ∃ frames, path env.next fuel frame = some frames ∧
      ∀ f ∈ frames, ¬ Mark f → .read f ∈ out.events := by
  induction fuel generalizing frame nestedFrame flags rc out with
  | zero => cases ran
  | succ fuel ih =>
    obtain ⟨nestedFrame', flags', eq⟩ :=
      rtlDispatchFrom_succ search fuel frame nestedFrame flags rc
    rw [eq] at ran
    by_cases mark : Mark frame
    · refine ⟨[frame], path_end (if_pos (Or.inl mark)), ?_⟩
      intro f mem unmarked
      rw [List.mem_singleton.mp mem] at unmarked
      exact absurd mark unmarked
    rw [if_neg mark] at ran
    by_cases self : frame = env.prevFrame frame
    · rw [if_pos self] at ran
      cases ran
      refine ⟨[frame], path_end (if_pos (Or.inr self)), ?_⟩
      intro f mem _
      rw [List.mem_singleton.mp mem]
      exact List.mem_singleton_self _
    rw [if_neg self] at ran
    by_cases onStack : env.OnStack frame
    · rw [if_neg (not_not_intro onStack)] at ran
      obtain ⟨rest, ran', rfl⟩ := Option.map_eq_some_iff.mp ran
      have link : env.next frame = some (env.prevFrame frame) := by
        unfold Env.next
        rw [if_neg (not_or.mpr ⟨mark, self⟩)]
      obtain ⟨frames, walked, seen⟩ := ih ran' fun f mem => reads f (List.mem_append_right _ mem)
      refine ⟨frame :: frames, by rw [path_link link, walked]; rfl, ?_⟩
      intro f mem unmarked
      rcases List.mem_cons.mp mem with rfl | later
      · exact List.mem_cons_self ..
      · exact List.mem_append_right _ (seen f later unmarked)
    · rw [if_pos onStack] at ran
      cases ran
      exact absurd (reads frame (List.mem_singleton_self _)) onStack

theorem survives_iff (except : Addr) (flags : Flags) :
    (∃ fuel out, rtlDispatchException env fuel except flags = some out ∧
      Survives env except out) ↔ env.Sound except := by
  constructor
  · rintro ⟨fuel, out, ran, survives⟩
    obtain ⟨frames, walked, seen⟩ := path_of_dispatch search ran survives.reads
    constructor
    · intro frame leads unmarked
      exact survives.reads frame (seen frame (mem_path walked leads) unmarked)
    · intro frame leads
      exact acyclic_of_path walked leads
  · intro sound
    have finite : {f | env.Leads except f ∧ env.next f ≠ none}.Finite := by
      apply (Set.finite_Iic env.stackTop).subset
      rintro f ⟨leads, goes⟩
      have unmarked : ¬ Mark f := by
        intro mark
        exact goes (if_pos (Or.inl mark))
      have top := (sound.onStack f leads unmarked).2.1
      exact le_trans (Nat.le_add_right f sizeofFrame) top
    obtain ⟨fuel, frames, walked⟩ := exists_path finite sound.acyclic
    have onStack : ∀ f ∈ frames, ¬ Mark f → env.OnStack f := fun f mem =>
      sound.onStack f (reached_of_mem_path walked mem)
    obtain ⟨out, ran, reads, calls⟩ := dispatch_of_path search 0 flags
      exceptionContinueSearch walked onStack
    refine ⟨fuel, out, ran, ?_, calls.nodup (path_nodup walked), frames.length, ?_⟩
    · intro f mem
      exact onStack f (reads f mem).1 (reads f mem).2
    · rw [← path_iterate next_follows walked]
      exact calls

end Search

theorem raiseRecord_inside_iff (mem : Memory) (dwExceptionCode : ℕ) (dwExceptionFlags : Flags)
    (cArguments lpArguments eip : ℕ) :
    (raiseRecord mem dwExceptionCode dwExceptionFlags cArguments lpArguments eip).Inside ↔
      lpArguments = 0 ∨ cArguments ≤ maximumParameters := by
  unfold raiseRecord ExceptionRecord.Inside
  by_cases null : lpArguments = 0
  · simp [null]
  · simp only [ne_eq, null, not_false_eq_true, if_true, false_or]
    constructor
    · intro inside
      by_contra more
      have last := inside (maximumParameters, mem (lpArguments + 4 * maximumParameters))
        (List.mem_map.mpr ⟨maximumParameters, List.mem_range.mpr (by omega), rfl⟩)
      exact Nat.lt_irrefl _ last
    · intro few store mem
      obtain ⟨i, less, rfl⟩ := List.mem_map.mp mem
      exact Nat.lt_of_lt_of_le (List.mem_range.mp less) few

/-- When every handler declines, the dispatch survives and the record is built in its place
for the sound chains and for at most fifteen arguments. -/
theorem dispatch_raise_iff (env : Env)
    (search : ∀ h flags frame, (env.handlers h flags frame).1 = exceptionContinueSearch)
    (except : Addr) (flags : Flags) (dwExceptionCode cArguments lpArguments eip : ℕ) :
    ((∃ fuel out, rtlDispatchException env fuel except flags = some out ∧
        Survives env except out) ∧
      (raiseRecord env.mem dwExceptionCode flags cArguments lpArguments eip).Inside) ↔
    env.Sound except ∧ (lpArguments = 0 ∨ cArguments ≤ maximumParameters) :=
  and_congr (survives_iff search except flags)
    (raiseRecord_inside_iff env.mem dwExceptionCode flags cArguments lpArguments eip)

def declines : Handler := fun _ _ => (exceptionContinueSearch, 0)

/-- Two frames with handlers, the second linked to `last`. -/
def twoFrames (last : Addr) : Env where
  mem a :=
    if a = 0x1000 then 0x1010 else if a = 0x1004 then 0x500
    else if a = 0x1010 then last else if a = 0x1014 then 0x600 else 0
  stackLow := 0x1000
  stackTop := 0x2000
  sehHandlerWin32 := 0x700
  handlers _ := declines

theorem twoFrames_survives :
    (∃ fuel out, rtlDispatchException (twoFrames 0xFFFFFFFF) fuel 0x1000 0 = some out ∧
        Survives (twoFrames 0xFFFFFFFF) 0x1000 out) ∧
      (raiseRecord (twoFrames 0xFFFFFFFF).mem 0xC0000005 0 2 0x1800 0x400).Inside := by
  have walked : path (twoFrames 0xFFFFFFFF).next 3 0x1000 = some [0x1000, 0x1010, 0xFFFFFFFF] := rfl
  refine (dispatch_raise_iff (twoFrames 0xFFFFFFFF) (fun _ _ _ => rfl) 0x1000 0 0xC0000005 2
    0x1800 0x400).mpr ⟨⟨?_, fun _ leads => acyclic_of_path walked leads⟩, Or.inr (by decide)⟩
  intro frame leads unmarked
  have mem := mem_path walked leads
  simp only [List.mem_cons, List.not_mem_nil, or_false] at mem
  rcases mem with rfl | rfl | rfl
  · decide
  · decide
  · exact absurd (by decide) unmarked

/-- Two frames of the stack link to each other: the walk over them has no end. -/
theorem frameRing_not_survives : ¬ ∀ (env : Env),
    (∀ h flags frame, (env.handlers h flags frame).1 = exceptionContinueSearch) →
    ∀ (except : Addr) (flags : Flags) (dwExceptionCode cArguments lpArguments eip : ℕ),
      (∃ fuel out, rtlDispatchException env fuel except flags = some out ∧
        Survives env except out) ∧
      (raiseRecord env.mem dwExceptionCode flags cArguments lpArguments eip).Inside := by
  intro all
  have survives := (all (twoFrames 0x1000) (fun _ _ _ => rfl) 0x1000 0 0 0 0 0).1
  have declining : ∀ h flags frame,
      ((twoFrames 0x1000).handlers h flags frame).1 = exceptionContinueSearch := fun _ _ _ => rfl
  have sound := (survives_iff declining 0x1000 0).mp survives
  have there : Step (twoFrames 0x1000).next 0x1000 0x1010 := rfl
  have back : Step (twoFrames 0x1000).next 0x1010 0x1000 := rfl
  exact sound.acyclic 0x1000 Relation.ReflTransGen.refl
    (Relation.TransGen.head there (Relation.TransGen.single back))

end Odin32.Exceptions
