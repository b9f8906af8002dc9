import Odin32.Exceptions
import Mathlib.Data.List.Chain
import Mathlib.Data.List.Pairwise

/-! # Unwinding to a frame

`OS2RtlUnwind` takes the link of a frame before it calls the handler and goes on with that
link in any case. The frame that a collided unwind hands over is dropped, so that the
frames between the nested frame and the one it stands for are unwound once more. -/

set_option autoImplicit false

namespace Odin32.Exceptions

/-- A chain of frames on the stack at rising addresses, from `except` to its end. -/
structure FrameChain (env : Env) (except : Addr) (frames : List Addr) : Prop where
  first : frames.head? = some except
  links : frames.IsChain fun frame prev => env.prevFrame frame = prev ∧ frame < prev
  ends : ∀ last, frames.getLast? = some last → env.prevFrame last ∉ frames
  onStack : ∀ frame ∈ frames, env.OnStack frame

/-- The frame that `EXC_CallHandler` pushed in an unwind. -/
def Env.Nested (env : Env) (frame : Addr) : Prop :=
  env.handler frame ≠ 0 ∧ env.handlers (env.handler frame) = excUnwindHandler env.mem

/-- The handlers below the target decline, or are those of nested frames of an unwind that
was handling a frame further up. -/
def Env.Behaves (env : Env) (frames : List Addr) (pEndFrame : Addr) : Prop :=
  ∀ frame ∈ frames, frame < pEndFrame → env.handler frame ≠ 0 →
    (∀ flags, (env.handlers (env.handler frame) flags frame).1 = exceptionContinueSearch) ∨
    (env.Nested frame ∧ env.mem (frame + sizeofFrame) ∈ frames ∧
      frame < env.mem (frame + sizeofFrame))

def Event.visit : Event → Option Addr
  | .read frame => some frame
  | .call _ _ => none

/-- The frames of the loop, in order. -/
def visitedFrames (events : List Event) : List Addr := events.filterMap Event.visit

/-- The frame an unwind has to go on with. -/
def Env.successor (env : Env) (flags : Flags) (frame : Addr) : Addr :=
  let (rc, dispatch, _) := excCallHandler env flags frame
  if rc = exceptionCollidedUnwind then env.prevFrame dispatch else env.prevFrame frame

/-- What is asked of an unwind that returned with the chain at `head`. -/
structure ReachesTarget (env : Env) (pEndFrame except : Addr) (flags : Flags) (head : Addr)
    (events : List Event) : Prop where
  head : head = pEndFrame
  first : (visitedFrames events ++ [pEndFrame]).head? = some except
  order : (visitedFrames events ++ [pEndFrame]).IsChain
    fun frame next => next = env.successor flags frame
  calls : calledFrames events = (visitedFrames events).filter fun frame => env.handler frame ≠ 0
  unwinding : ∀ frame given, .call frame given ∈ events → given &&& ehUnwinding ≠ 0
  below : ∀ frame ∈ visitedFrames events, frame < pEndFrame

/-! ## Chains -/

section Chains

variable {env : Env} {frames : List Addr}

theorem chain_ascending
    (links : frames.IsChain fun frame prev => env.prevFrame frame = prev ∧ frame < prev) :
    frames.Pairwise (· < ·) := by
  apply List.isChain_iff_pairwise.mp
  exact links.imp fun _ _ link => link.2

theorem chain_link {f g : Addr}
    (links : frames.IsChain fun frame prev => env.prevFrame frame = prev ∧ frame < prev)
    (mem : f ∈ frames) (mem' : g ∈ frames) (less : f < g) :
    env.prevFrame f ∈ frames ∧ f < env.prevFrame f ∧ env.prevFrame f ≤ g := by
  induction frames with
  | nil => cases mem
  | cons a rest ih =>
    have rising := List.pairwise_cons.mp (chain_ascending links)
    have tail := links.tail
    have g_rest : g ∈ rest := by
      rcases List.mem_cons.mp mem' with rfl | later
      · rcases List.mem_cons.mp mem with rfl | later'
        · exact absurd less (Nat.lt_irrefl f)
        · exact absurd less (Nat.lt_asymm (rising.1 f later'))
      · exact later
    rcases List.mem_cons.mp mem with rfl | later
    · cases rest with
      | nil => cases g_rest
      | cons b rest =>
        obtain ⟨link, below⟩ := (List.isChain_cons_cons.mp links).1
        rw [link]
        refine ⟨List.mem_cons_of_mem f (List.mem_cons_self ..), below, ?_⟩
        rcases List.mem_cons.mp g_rest with rfl | above
        · exact Nat.le_refl g
        · exact Nat.le_of_lt ((List.pairwise_cons.mp rising.2).1 g above)
    · obtain ⟨mem₁, above, least⟩ := ih tail later g_rest
      exact ⟨List.mem_cons_of_mem a mem₁, above, least⟩

theorem FrameChain.link_ne {except : Addr} (chain : FrameChain env except frames) {f g : Addr}
    (mem : f ∈ frames) (mem' : g ∈ frames) (less : f < g) :
    env.prevFrame g ≠ env.prevFrame f := by
  obtain ⟨inside, -, least⟩ := chain_link chain.links mem mem' less
  by_cases top : ∃ h ∈ frames, g < h
  · obtain ⟨h, mem'', less'⟩ := top
    obtain ⟨-, above, -⟩ := chain_link chain.links mem' mem'' less'
    exact Nat.ne_of_gt (Nat.lt_of_le_of_lt least above)
  · have isLast : frames.getLast? = some g := by
      obtain ⟨front, last, rfl⟩ : ∃ front last, frames = front ++ [last] :=
        ⟨_, _, (List.dropLast_append_getLast (List.ne_nil_of_mem mem)).symm⟩
      rcases List.mem_append.mp mem' with early | late
      · have rising := (List.pairwise_append.mp (chain_ascending chain.links)).2.2
        exact absurd ⟨last, by simp, rising g early last (List.mem_singleton_self last)⟩ top
      · rw [List.mem_singleton.mp late]
        simp
    intro same
    rw [← same] at inside
    exact chain.ends g isLast inside

end Chains

/-! ## The loop -/

theorem unwindFlags_unwinding (pEndFrame : Addr) (flags : Flags) :
    unwindFlags pEndFrame flags &&& ehUnwinding ≠ 0 := by
  have kept : unwindFlags pEndFrame flags &&& ehUnwinding = ehUnwinding := by
    unfold unwindFlags
    split
    · ext i
      simp only [BitVec.getElem_and, BitVec.getElem_or]
      cases ehUnwinding[i] <;> simp
    · ext i
      simp only [BitVec.getElem_and, BitVec.getElem_or]
      cases ehUnwinding[i] <;> simp
  rw [kept]
  decide

theorem both_of_unwinding {flags : Flags} (unwinding : flags &&& ehUnwinding ≠ 0) :
    flags &&& (ehUnwinding ||| ehExitUnwind) ≠ 0 := by
  intro none'
  apply unwinding
  have part : ehUnwinding = (ehUnwinding ||| ehExitUnwind) &&& ehUnwinding := by decide
  rw [part, ← BitVec.and_assoc, none']
  decide

section Loop

variable {env : Env} {except pEndFrame : Addr} {frames : List Addr} {flags : Flags}

theorem call_of_behaves (behaves : env.Behaves frames pEndFrame)
    (unwinding : flags &&& ehUnwinding ≠ 0) {f : Addr} (mem : f ∈ frames) (less : f < pEndFrame) :
    (excCallHandler env flags f).2.2 = callEvents env flags f ∧
    ((excCallHandler env flags f).1 = exceptionContinueSearch ∧ ¬ env.Nested f ∧
        env.successor flags f = env.prevFrame f ∨
      (excCallHandler env flags f).1 = exceptionCollidedUnwind ∧ env.Nested f ∧
        ∃ g ∈ frames, f < g ∧ env.successor flags f = env.prevFrame g) := by
  unfold Env.successor excCallHandler callEvents
  by_cases handled : env.handler f ≠ 0
  · simp only [if_pos handled]
    refine ⟨trivial, ?_⟩
    rcases behaves f mem less handled with declines | ⟨nested, above, higher⟩
    · refine Or.inl ⟨declines flags, ?_, ?_⟩
      · rintro ⟨-, nested⟩
        have both := declines ehUnwinding
        rw [nested] at both
        cases both
      · rw [declines flags]
        rfl
    · refine Or.inr ?_
      have answer : env.handlers (env.handler f) flags f =
          (exceptionCollidedUnwind, env.mem (f + sizeofFrame)) := by
        rw [nested.2]
        exact if_neg (both_of_unwinding unwinding)
      change (env.handlers (env.handler f) flags f).1 = exceptionCollidedUnwind ∧ env.Nested f ∧
        ∃ g ∈ frames, f < g ∧
          (if (env.handlers (env.handler f) flags f).1 = exceptionCollidedUnwind then
            env.prevFrame (env.handlers (env.handler f) flags f).2
          else env.prevFrame f) = env.prevFrame g
      rw [answer]
      exact ⟨rfl, nested, _, above, higher, rfl⟩
  · simp only [if_neg handled]
    refine ⟨trivial, Or.inl ⟨trivial, fun nested => handled nested.1, rfl⟩⟩

theorem unwind_round (behaves : env.Behaves frames pEndFrame)
    (unwinding : flags &&& ehUnwinding ≠ 0) (fuel : ℕ) {f : Addr} (mem : f ∈ frames)
    (less : f < pEndFrame) (onStack : env.OnStack f) (head : Addr) :
    os2RtlUnwindFrom env pEndFrame flags (fuel + 1) f head =
      if LastPage f then some (.returned head [])
      else (os2RtlUnwindFrom env pEndFrame flags fuel (env.prevFrame f) (env.prevFrame f)).map
        fun rest => rest.after (.read f :: callEvents env flags f) := by
  obtain ⟨called, rc⟩ := call_of_behaves behaves unwinding mem less
  have goesOn : (excCallHandler env flags f).1 = exceptionContinueSearch ∨
      (excCallHandler env flags f).1 = exceptionCollidedUnwind := by
    rcases rc with search | collided
    · exact Or.inl search.1
    · exact Or.inr collided.1
  have ne : f ≠ pEndFrame := Nat.ne_of_lt less
  rw [os2RtlUnwindFrom]
  by_cases mark : LastPage f
  · rw [if_pos mark, if_pos (Or.inl mark)]
  · rw [if_neg mark, if_neg (not_or.mpr ⟨mark, ne⟩)]
    simp only
    rw [if_neg fun above => Nat.lt_asymm less above.2, if_neg (not_not_intro onStack),
      if_pos goesOn, called]

theorem unwind_target (fuel : ℕ) (head : Addr) :
    os2RtlUnwindFrom env pEndFrame flags (fuel + 1) pEndFrame head =
      some (.returned head []) := by
  rw [os2RtlUnwindFrom]
  exact if_pos (Or.inr rfl)

theorem visited_round (f : Addr) (events : List Event) :
    visitedFrames (.read f :: callEvents env flags f ++ events) = f :: visitedFrames events := by
  unfold visitedFrames callEvents
  split <;> rfl

theorem called_round (f : Addr) (events : List Event) :
    calledFrames (.read f :: callEvents env flags f ++ events) =
      [f].filter (fun frame => env.handler frame ≠ 0) ++ calledFrames events := by
  unfold calledFrames callEvents
  by_cases handled : env.handler f ≠ 0
  · have kept : [f].filter (fun frame => env.handler frame ≠ 0) = [f] := by simp [handled]
    rw [if_pos handled, kept]
    rfl
  · have dropped : [f].filter (fun frame => env.handler frame ≠ 0) = [] := by simp [handled]
    rw [if_neg handled, dropped]
    rfl

theorem ReachesTarget.round {f head : Addr} {events : List Event}
    (reaches : ReachesTarget env pEndFrame (env.prevFrame f) flags head events)
    (goes : env.successor flags f = env.prevFrame f) (unwinding : flags &&& ehUnwinding ≠ 0)
    (less : f < pEndFrame) :
    ReachesTarget env pEndFrame f flags head
      (.read f :: callEvents env flags f ++ events) := by
  have visited : visitedFrames (.read f :: callEvents env flags f ++ events) =
      f :: visitedFrames events := visited_round f events
  constructor
  case head => exact reaches.head
  case first =>
    rw [visited]
    rfl
  case order =>
    rw [visited, List.cons_append, List.isChain_cons]
    refine ⟨?_, reaches.order⟩
    intro g first
    rw [goes]
    exact (Option.some.inj (reaches.first.symm.trans first)).symm
  case calls =>
    rw [visited, called_round, reaches.calls, List.filter_cons, List.filter_cons]
    split <;> rfl
  case unwinding =>
    intro g given mem
    rcases List.mem_append.mp mem with first | later
    · unfold callEvents at first
      have same : given = flags := by
        split at first <;> simp at first
        exact first.2
      rw [same]
      exact unwinding
    · exact reaches.unwinding g given later
  case below =>
    intro g mem
    rw [visited] at mem
    rcases List.mem_cons.mp mem with rfl | later
    · exact less
    · exact reaches.below g later

end Loop

/-! ## Whole unwinds -/

/-- The frames that an unwind can get over: not taken for the end of the chain, and not
nested frames of an earlier unwind. -/
def Env.Plain (env : Env) (frame : Addr) : Prop := ¬ LastPage frame ∧ ¬ env.Nested frame

section Whole

variable {env : Env} {except pEndFrame : Addr} {frames : List Addr} {flags : Flags}

theorem unwind_reaches (chain : FrameChain env except frames)
    (behaves : env.Behaves frames pEndFrame) (unwinding : flags &&& ehUnwinding ≠ 0)
    (plain : ∀ f ∈ frames, f < pEndFrame → env.Plain f) {rest : List Addr} {f : Addr}
    (part : ∀ g ∈ f :: rest, g ∈ frames)
    (links : (f :: rest).IsChain fun frame prev => env.prevFrame frame = prev ∧ frame < prev)
    (target : pEndFrame ∈ f :: rest) :
    ∃ events, os2RtlUnwindFrom env pEndFrame flags (rest.length + 1) f f =
        some (.returned pEndFrame events) ∧
      ReachesTarget env pEndFrame f flags pEndFrame events := by
  induction rest generalizing f with
  | nil =>
    obtain rfl := List.mem_singleton.mp target
    refine ⟨[], unwind_target 0 pEndFrame, rfl, rfl, List.isChain_singleton _, rfl, ?_, ?_⟩
    · intro g given mem
      cases mem
    · intro g mem
      cases mem
  | cons g rest ih =>
    rcases List.mem_cons.mp target with rfl | above
    · refine ⟨[], unwind_target _ pEndFrame, rfl, rfl, List.isChain_singleton _, rfl, ?_, ?_⟩
      · intro g given mem
        cases mem
      · intro g mem
        cases mem
    · have less : f < pEndFrame := (List.pairwise_cons.mp (chain_ascending links)).1 _ above
      have mem := part f (List.mem_cons_self ..)
      obtain ⟨⟨link, -⟩, links'⟩ := List.isChain_cons_cons.mp links
      obtain ⟨unmarked, free⟩ := plain f mem less
      obtain ⟨events, ran, reaches⟩ :=
        ih (fun h mem' => part h (List.mem_cons_of_mem f mem')) links' above
      have goes : env.successor flags f = env.prevFrame f := by
        obtain ⟨-, search | collided⟩ := call_of_behaves behaves unwinding mem less
        · exact search.2.2
        · exact absurd collided.2.1 free
      rw [← link] at ran reaches
      refine ⟨_, ?_, reaches.round goes unwinding less⟩
      rw [List.length_cons, unwind_round behaves unwinding _ mem less (chain.onStack f mem),
        if_neg unmarked, ran]
      rfl

theorem unwind_first {fuel : ℕ} {g : Addr} {events : List Event}
    (ran : os2RtlUnwindFrom env pEndFrame flags fuel g g = some (.returned pEndFrame events)) :
    (visitedFrames events ++ [pEndFrame]).head? = some g := by
  cases fuel with
  | zero => cases ran
  | succ fuel =>
    rw [os2RtlUnwindFrom] at ran
    split at ran
    · cases ran
      rfl
    · simp only at ran
      split at ran
      · cases ran
      · split at ran
        · cases ran
        · split at ran
          · obtain ⟨rest, -, eq⟩ := Option.map_eq_some_iff.mp ran
            cases rest with
            | exitThread => cases eq
            | returned head events' =>
              cases eq
              rfl
          · cases ran

theorem plain_of_reaches (chain : FrameChain env except frames)
    (behaves : env.Behaves frames pEndFrame) (unwinding : flags &&& ehUnwinding ≠ 0)
    {rest : List Addr} {f : Addr} (part : ∀ g ∈ f :: rest, g ∈ frames)
    (links : (f :: rest).IsChain fun frame prev => env.prevFrame frame = prev ∧ frame < prev)
    (target : pEndFrame ∈ f :: rest) {fuel : ℕ} {events : List Event}
    (ran : os2RtlUnwindFrom env pEndFrame flags fuel f f = some (.returned pEndFrame events))
    (order : (visitedFrames events ++ [pEndFrame]).IsChain
      fun frame next => next = env.successor flags frame) :
    ∀ g ∈ f :: rest, g < pEndFrame → env.Plain g := by
  induction rest generalizing f fuel events with
  | nil =>
    intro g mem less
    rw [List.mem_singleton.mp mem, ← List.mem_singleton.mp target] at less
    exact absurd less (Nat.lt_irrefl _)
  | cons h rest ih =>
    have rising := List.pairwise_cons.mp (chain_ascending links)
    rcases List.mem_cons.mp target with rfl | above
    · intro g mem less
      rcases List.mem_cons.mp mem with rfl | later
      · exact absurd less (Nat.lt_irrefl _)
      · exact absurd less (Nat.lt_asymm (rising.1 g later))
    · have less : f < pEndFrame := rising.1 _ above
      have mem := part f (List.mem_cons_self ..)
      obtain ⟨⟨link, -⟩, links'⟩ := List.isChain_cons_cons.mp links
      cases fuel with
      | zero => cases ran
      | succ fuel =>
        rw [unwind_round behaves unwinding _ mem less (chain.onStack f mem)] at ran
        by_cases mark : LastPage f
        · rw [if_pos mark] at ran
          cases ran
          exact absurd less (Nat.lt_irrefl _)
        rw [if_neg mark] at ran
        obtain ⟨after, ran', eq⟩ := Option.map_eq_some_iff.mp ran
        cases after with
        | exitThread => cases eq
        | returned head events' =>
          cases eq
          rw [visited_round, List.cons_append, List.isChain_cons] at order
          have goes : env.prevFrame f = env.successor flags f :=
            order.1 _ (unwind_first ran')
          have free : ¬ env.Nested f := by
            obtain ⟨-, search | ⟨-, -, g, mem', higher, eq⟩⟩ :=
              call_of_behaves behaves unwinding mem less
            · exact search.2.1
            · exact absurd (eq.symm.trans goes.symm) (chain.link_ne mem mem' higher)
          rw [link] at ran'
          have later := ih (fun k mem' => part k (List.mem_cons_of_mem f mem')) links' above ran'
            order.2
          intro g mem' less'
          rcases List.mem_cons.mp mem' with rfl | inRest
          · exact ⟨mark, free⟩
          · exact later g inRest less'

end Whole

/-- An unwind to a frame of the chain does what is asked of it if and only if no frame below
the target is the nested frame of another unwind or lies in the last page. -/
theorem os2RtlUnwind_iff (env : Env) (except pEndFrame : Addr) (frames : List Addr)
    (chain : FrameChain env except frames) (target : pEndFrame ∈ frames)
    (behaves : env.Behaves frames pEndFrame) (record : Option Flags) :
    (∃ fuel head events, os2RtlUnwind env fuel pEndFrame except record =
        some (.returned head events) ∧
      ReachesTarget env pEndFrame except (unwindFlags pEndFrame (record.getD 0)) head events) ↔
    ∀ frame ∈ frames, frame < pEndFrame → env.Plain frame := by
  have unwinding := unwindFlags_unwinding pEndFrame (record.getD 0)
  cases frames with
  | nil => cases target
  | cons f rest =>
    obtain rfl : f = except := Option.some.inj chain.first
    constructor
    · rintro ⟨fuel, head, events, ran, reaches⟩
      obtain rfl := reaches.head
      exact plain_of_reaches chain behaves unwinding (fun _ mem => mem) chain.links target ran
        reaches.order
    · intro plain
      obtain ⟨events, ran, reaches⟩ := unwind_reaches chain behaves unwinding plain
        (fun _ mem => mem) chain.links target
      exact ⟨rest.length + 1, pEndFrame, events, ran, reaches⟩

/-- Two frames of a program. -/
def programStack : Memory := fun a =>
  if a = 0x1100 then 0x1200 else if a = 0x1104 then 0x500
  else if a = 0x1200 then 0xFFFFFFFF else if a = 0x1204 then 0x600 else 0

/-- The same while an unwind is in the handler of the lower frame. -/
def interruptedStack : Memory := pushNested programStack 0x1000 0x1100 0x700 0x1100

def interrupted : Env where
  mem := interruptedStack
  stackLow := 0x1000
  stackTop := 0x2000
  sehHandlerWin32 := 0x800
  handlers h :=
    if h = 0x700 then excUnwindHandler interruptedStack
    else fun _ _ => (exceptionContinueSearch, 0)

theorem interrupted_behaves : interrupted.Behaves [0x1000, 0x1100, 0x1200] 0x1200 := by
  intro frame mem less _
  simp only [List.mem_cons, List.not_mem_nil, or_false] at mem
  rcases mem with rfl | rfl | rfl
  · exact Or.inr ⟨⟨by decide, rfl⟩, by decide, by decide⟩
  · exact Or.inl fun _ => rfl
  · exact absurd less (Nat.lt_irrefl _)

theorem os2RtlUnwind_program :
    ∃ fuel head events, os2RtlUnwind interrupted fuel 0x1200 0x1100 none =
        some (.returned head events) ∧
      ReachesTarget interrupted 0x1200 0x1100 (unwindFlags 0x1200 0) head events := by
  refine (os2RtlUnwind_iff interrupted 0x1100 0x1200 [0x1100, 0x1200]
    ⟨rfl, by decide, ?_, by decide⟩ (by decide) ?_ none).mpr ?_
  · rintro last ⟨⟩
    decide
  · intro frame mem less _
    simp only [List.mem_cons, List.not_mem_nil, or_false] at mem
    rcases mem with rfl | rfl
    · exact Or.inl fun _ => rfl
    · exact absurd less (Nat.lt_irrefl _)
  · intro frame mem less
    simp only [List.mem_cons, List.not_mem_nil, or_false] at mem
    rcases mem with rfl | rfl
    · refine ⟨by decide, ?_⟩
      rintro ⟨-, same⟩
      have answers := congrFun (congrFun same ehUnwinding) 0x1100
      cases answers
    · exact absurd less (Nat.lt_irrefl _)

/-- A second unwind that meets the nested frame of the first calls the interrupted handler
again. -/
theorem collided_not_reachesTarget : ¬ ∀ (env : Env) (except pEndFrame : Addr)
    (frames : List Addr), FrameChain env except frames → pEndFrame ∈ frames →
    env.Behaves frames pEndFrame → ∀ record : Option Flags,
    ∃ fuel head events, os2RtlUnwind env fuel pEndFrame except record =
        some (.returned head events) ∧
      ReachesTarget env pEndFrame except (unwindFlags pEndFrame (record.getD 0)) head events := by
  intro all
  have chain : FrameChain interrupted 0x1000 [0x1000, 0x1100, 0x1200] := by
    refine ⟨rfl, by decide, ?_, by decide⟩
    rintro last ⟨⟩
    decide
  obtain ⟨fuel, head, events, ran, reaches⟩ :=
    all interrupted 0x1000 0x1200 _ chain (by decide) interrupted_behaves none
  obtain rfl := reaches.head
  have plain := plain_of_reaches chain interrupted_behaves (unwindFlags_unwinding 0x1200 0)
    (fun _ mem => mem) chain.links (by decide) ran reaches.order 0x1000 (by decide) (by decide)
  exact plain.2 ⟨by decide, rfl⟩

end Odin32.Exceptions
