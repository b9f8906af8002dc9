import Odin32.IocpHandles
import Odin32.IocpRun
import Mathlib.Data.List.Basic
import Mathlib.Tactic.Common

/-! # Ports, associations and handles over whole runs

A port outlives its handle: `findPort` goes by the value, whatever is open under it by now. And
the two halves of `CreateIoCompletionPort` are not undone: a call that fails in the second one
has made its port already. -/

set_option autoImplicit false

namespace Odin32.Iocp

variable {s s' : State} {t : ℕ}

/-! ## What the calls do -/

theorem step_free {c : Call} {act : Action} (at_t : s.calls[t]? = some c)
    (notLocked : stepLocked s t c act = none) (stepped : Iocp.step s (t, act) = some s') :
    stepFree s t c act = some s' := by
  simp only [Iocp.step, at_t, Option.bind_eq_bind, Option.bind_some] at stepped
  cases free : stepFree s t c act with
  | some s₁ =>
    rw [free] at stepped
    exact stepped
  | none =>
    rw [free] at stepped
    simp only at stepped
    split at stepped
    · cases stepped
    · rw [notLocked] at stepped
      cases stepped

theorem step_locked {c : Call} {act : Action} (at_t : s.calls[t]? = some c)
    (notFree : stepFree s t c act = none) (stepped : Iocp.step s (t, act) = some s') :
    stepLocked s t c act = some s' := by
  simp only [Iocp.step, at_t, Option.bind_eq_bind, Option.bind_some, notFree] at stepped
  split at stepped
  · cases stepped
  · exact stepped

theorem step_calls {act : Action} (stepped : Iocp.step s (t, act) = some s') :
    ∃ c, s.calls[t]? = some c := by
  obtain ⟨c, at_t, -⟩ := Option.bind_eq_some_iff.mp stepped
  exact ⟨c, at_t⟩

theorem step_create {fileHandle existing : Handle} {key : ℕ} {sem : Option Handle}
    {mem : Option Addr}
    (stepped : Iocp.step s (t, .createIoCompletionPort fileHandle existing key sem mem) = some s') :
    s.calls[t]? = some .idle ∧
    ((existing ≠ 0 ∧ s' = s.withPort t existing fileHandle key) ∨
    (existing = 0 ∧ (sem = none ∨ mem = none) ∧ ∃ error, s' = s.reply t (.handle 0 error)) ∨
    existing = 0 ∧ ∃ h p, sem = some h ∧ mem = some p ∧ h ≠ 0 ∧ s.portAt p = none ∧
      s' = { s with
        portAt := Function.update s.portAt p (some ⟨h, none, none⟩)
        sem := Function.update s.sem h (some 0) }.goto t (.linking p h fileHandle key)) := by
  obtain ⟨c, at_t⟩ := step_calls stepped
  have free := step_free at_t (by cases c <;> rfl) stepped
  cases c with
  | idle =>
    refine ⟨at_t, ?_⟩
    simp only [stepFree] at free
    by_cases given : existing ≠ 0
    · rw [if_pos given] at free
      exact Or.inl ⟨given, (Option.some.inj free).symm⟩
    · have zero : existing = 0 := not_not.mp given
      rw [if_neg given] at free
      cases sem with
      | none => exact Or.inr (Or.inl ⟨zero, Or.inl rfl, _, (Option.some.inj free).symm⟩)
      | some h =>
        simp only at free
        split at free
        · rename_i new
          cases mem with
          | none => exact Or.inr (Or.inl ⟨zero, Or.inr rfl, _, (Option.some.inj free).symm⟩)
          | some p =>
            simp only at free
            split at free
            · rename_i fresh
              exact Or.inr (Or.inr
                ⟨zero, h, p, rfl, rfl, new.2, fresh, (Option.some.inj free).symm⟩)
            · cases free
        · cases free
  | _ => cases free

theorem step_link (stepped : Iocp.step s (t, .linkPort) = some s') :
    ∃ p h fileHandle key, s.calls[t]? = some (.linking p h fileHandle key) ∧
      s' = { s with ports := p :: s.ports }.withPort t h fileHandle key := by
  obtain ⟨c, at_t⟩ := step_calls stepped
  have locked := step_locked at_t (by cases c <;> rfl) stepped
  cases c with
  | linking p h fileHandle key =>
    exact ⟨p, h, fileHandle, key, at_t, (Option.some.inj locked).symm⟩
  | _ => cases locked

theorem step_associate {mem : Bool} (stepped : Iocp.step s (t, .associate mem) = some s') :
    ∃ existing fileHandle key, s.calls[t]? = some (.associating existing fileHandle key) ∧
      s' = s.associate t existing fileHandle key mem := by
  obtain ⟨c, at_t⟩ := step_calls stepped
  have locked := step_locked at_t (by cases c <;> rfl) stepped
  cases c with
  | associating existing fileHandle key =>
    exact ⟨existing, fileHandle, key, at_t, (Option.some.inj locked).symm⟩
  | _ => cases locked

theorem step_odinIocpRemove {hFile : Handle}
    (stepped : Iocp.step s (t, .odinIocpRemove hFile) = some s') :
    s' = s.reply t .void ∨ s' = s.goto t (.removing hFile) := by
  obtain ⟨c, at_t⟩ := step_calls stepped
  have free := step_free at_t (by cases c <;> rfl) stepped
  cases c with
  | idle =>
    simp only [stepFree] at free
    split at free
    · exact Or.inl (Option.some.inj free).symm
    · exact Or.inr (Option.some.inj free).symm
  | _ => cases free

theorem step_remove (stepped : Iocp.step s (t, .remove) = some s') :
    ∃ hFile, s' = { s with
      assocs := s.assocs.eraseP fun a => a.hFile == hFile }.reply t .void := by
  obtain ⟨c, at_t⟩ := step_calls stepped
  have locked := step_locked at_t (by cases c <;> rfl) stepped
  cases c with
  | removing hFile => exact ⟨hFile, (Option.some.inj locked).symm⟩
  | _ => cases locked

theorem associate_cases (s : State) (t : ℕ) (existing fileHandle : Handle) (key : ℕ) (mem : Bool) :
    (∃ p, s.findPort existing = some p ∧ s.findAssoc fileHandle = none ∧ mem = true ∧
      s.associate t existing fileHandle key mem = { s with
        assocs := ⟨fileHandle, p, key⟩ :: s.assocs }.reply t (.handle existing none)) ∨
    ((s.findPort existing = none ∨ s.findAssoc fileHandle ≠ none ∨ mem = false) ∧
      ∃ error, s.associate t existing fileHandle key mem = s.reply t (.handle 0 error)) := by
  unfold State.associate
  cases port : s.findPort existing with
  | none => exact Or.inr ⟨Or.inl rfl, _, rfl⟩
  | some p =>
    cases assoc : s.findAssoc fileHandle with
    | some a => exact Or.inr ⟨Or.inr (Or.inl (by simp)), _, rfl⟩
    | none =>
      cases mem with
      | true => exact Or.inl ⟨p, rfl, rfl, rfl, rfl⟩
      | false => exact Or.inr ⟨Or.inr (Or.inr rfl), _, rfl⟩

theorem findPort_spec {h : Handle} {p : Addr} (found : s.findPort h = some p) :
    p ∈ s.ports ∧ ∃ port, s.portAt p = some port ∧ port.hSem = h :=
  ⟨List.mem_of_find?_eq_some found, findPort_some found⟩

theorem findPort_ne_none {h : Handle} {p : Addr} {port : IocpPort} (mem : p ∈ s.ports)
    (at_p : s.portAt p = some port) (same : port.hSem = h) : s.findPort h ≠ none := by
  intro none
  refine List.find?_eq_none.mp none p mem ?_
  rw [at_p]
  simpa using same

theorem repliedNull_goto (s : State) (t : ℕ) (c : Call) : s.repliedNull (s.goto t c) = false := by
  rw [State.repliedNull, show (s.goto t c).replies = s.replies from rfl, List.drop_length]

theorem repliedNull_reply (s s₁ : State) (same : s₁.replies = s.replies) (t : ℕ) (r : Reply) :
    s.repliedNull (s₁.reply t r) = true ↔ ∃ error, r = .handle 0 error := by
  have replies : (s₁.reply t r).replies.drop s.replies.length = [(t, r)] := by
    rw [State.reply, same, List.drop_left]
  rw [State.repliedNull, replies]
  cases r with
  | handle h error => simp
  | _ => simp

/-! ## What is kept -/

/-- The semaphore of a port has the value. -/
def State.PortOf (s : State) (p : Addr) (h : Handle) : Prop :=
  ∃ port, s.portAt p = some port ∧ port.hSem = h

/-- What a call between its halves knows. -/
def CallFits (s : State) (made : Option Addr) : Call → Prop
  | .linking p h _ _ => made = some p ∧ h ≠ 0 ∧ s.PortOf p h
  | .associating existing _ _ =>
    existing ≠ 0 ∧ ∀ p, made = some p → p ∈ s.ports ∧ s.PortOf p existing
  | _ => True

theorem CallFits.mono {made : Option Addr} {c : Call} (fits : CallFits s made c)
    (ports : s.ports ⊆ s'.ports)
    (keeps : ∀ p h, s.PortOf p h → s'.PortOf p h) : CallFits s' made c := by
  cases c with
  | linking p h fileHandle key => exact ⟨fits.1, fits.2.1, keeps p h fits.2.2⟩
  | associating existing fileHandle key =>
    refine ⟨fits.1, fun p eq => ?_⟩
    obtain ⟨mem, port⟩ := fits.2 p eq
    exact ⟨ports mem, keeps p existing port⟩
  | _ => trivial

variable {w w' : World}

structure WorldInv (w : World) : Prop where
  consistent : w.Consistent
  calls : ∀ t c, w.iocp.calls[t]? = some c → CallFits w.iocp (w.made t) c

theorem worldInv_init (threads : ℕ) : WorldInv (world threads) := by
  refine ⟨⟨List.nodup_nil, ?_, ?_⟩, fun t c at_t => ?_⟩
  · intro a mem
    cases mem
  · intro made mem
    cases mem
  · have idle : c = .idle := by
      have at_t' : (List.replicate threads Call.idle)[t]? = some c := at_t
      exact List.eq_of_mem_replicate (List.mem_of_getElem? at_t')
    rw [idle]
    trivial

theorem calls_set (inv : WorldInv w) {t : ℕ} {d : Call}
    (calls : w'.iocp.calls = w.iocp.calls.set t d) (here : CallFits w'.iocp (w'.made t) d)
    (made : ∀ t', t' ≠ t → w'.made t' = w.made t') (ports : w.iocp.ports ⊆ w'.iocp.ports)
    (keeps : ∀ p h, w.iocp.PortOf p h → w'.iocp.PortOf p h) :
    ∀ t' c, w'.iocp.calls[t']? = some c → CallFits w'.iocp (w'.made t') c := by
  intro t' c at_t'
  rw [calls] at at_t'
  by_cases eq : t' = t
  · subst eq
    rw [List.getElem?_set_self'] at at_t'
    obtain ⟨old, -, rfl⟩ := Option.map_eq_some_iff.mp at_t'
    exact here
  · rw [List.getElem?_set_ne (Ne.symm eq)] at at_t'
    rw [made t' eq]
    exact (inv.calls t' c at_t').mono ports keeps

theorem OpenPort.congr {p : Addr} (isOpen : w.OpenPort p)
    (kept : ∀ port, w.iocp.portAt p = some port → w'.iocp.portAt p = some port)
    (objects : ∀ h, w.objects h = some (.semaphore p) → w'.objects h = some (.semaphore p)) :
    w'.OpenPort p := by
  obtain ⟨port, at_p, object⟩ := isOpen
  exact ⟨port, kept port at_p, objects port.hSem object⟩

theorem WorldInv.withIocp (inv : WorldInv w) {t : ℕ} {s' : State} {d : Call}
    (calls : s'.calls = w.iocp.calls.set t d) (here : CallFits s' (w.made t) d)
    (ports : w.iocp.ports ⊆ s'.ports) (portAt : s'.portAt = w.iocp.portAt)
    (single : (s'.assocs.map IocpAssoc.hFile).Nodup)
    (named : ∀ a ∈ s'.assocs, a ∈ w.iocp.assocs ∨ a.port ∈ w.iocp.ports ∧ w.OpenPort a.port)
    (null : w.iocp.repliedNull s' = true → w.made t = none) : WorldInv (w.withIocp t s') := by
  refine ⟨⟨single, fun a mem => ?_, fun made mem => ?_⟩, ?_⟩
  · have old : a.port ∈ w.iocp.ports ∧ w.OpenPort a.port := by
      rcases named a mem with old | new
      · exact inv.consistent.named a old
      · exact new
    refine ⟨ports old.1, OpenPort.congr old.2 (fun port at_p => ?_) fun h object => object⟩
    rw [← at_p]
    exact congrFun portAt a.port
  · simp only [World.withIocp] at mem
    split at mem
    · rename_i replied
      rcases List.mem_append.mp mem with old | new
      · exact inv.consistent.unchanged made old
      · rw [List.mem_singleton.mp new]
        exact null replied
    · exact inv.consistent.unchanged made mem
  · refine calls_set inv calls here (fun _ _ => rfl) ports fun p h portOf => ?_
    rw [State.PortOf, show (w.withIocp t s').iocp.portAt = w.iocp.portAt from portAt]
    exact portOf

theorem WorldInv.withPort (inv : WorldInv w) {t : ℕ} {existing fileHandle : Handle} {key : ℕ}
    (more : List Addr) (given : existing ≠ 0)
    (mine : ∀ p, w.made t = some p → p ∈ more ++ w.iocp.ports ∧ w.iocp.PortOf p existing) :
    WorldInv (w.withIocp t
      ({ w.iocp with ports := more ++ w.iocp.ports }.withPort t existing fileHandle key)) := by
  have ports : w.iocp.ports ⊆ more ++ w.iocp.ports := List.subset_append_right ..
  unfold State.withPort
  by_cases file : fileHandle ≠ invalidHandleValue
  · rw [if_pos file]
    exact inv.withIocp (d := .associating existing fileHandle key) rfl ⟨given, mine⟩ ports rfl
      inv.consistent.single (fun a mem => Or.inl mem) fun null => absurd null
        (by rw [State.repliedNull]; simp [State.goto])
  · rw [if_neg file]
    refine inv.withIocp (d := .idle) rfl trivial ports rfl inv.consistent.single
      (fun a mem => Or.inl mem) fun null => ?_
    obtain ⟨error, eq⟩ := (repliedNull_reply w.iocp
      { w.iocp with ports := more ++ w.iocp.ports } rfl t _).mp null
    cases eq
    exact absurd rfl given

theorem WorldInv.begin (inv : WorldInv w) {t : ℕ} (idle : w.iocp.calls[t]? = some .idle) :
    WorldInv { w with made := Function.update w.made t none } := by
  refine ⟨⟨inv.consistent.single, inv.consistent.named, inv.consistent.unchanged⟩, ?_⟩
  intro t' c at_t'
  by_cases eq : t' = t
  · subst eq
    obtain rfl : .idle = c := Option.some.inj (idle.symm.trans at_t')
    trivial
  · simp only [Function.update_of_ne eq]
    exact inv.calls t' c at_t'

theorem WorldInv.make (inv : WorldInv w) {t : ℕ} {h : Handle} {p : Addr} {fileHandle : Handle}
    {key : ℕ} (given : h ≠ 0) (fresh : w.iocp.portAt p = none) (unused : w.objects h = none) :
    WorldInv ({ w with
        objects := Function.update w.objects h (some (.semaphore p))
        made := Function.update w.made t (some p) }.withIocp t
      ({ w.iocp with
        portAt := Function.update w.iocp.portAt p (some ⟨h, none, none⟩)
        sem := Function.update w.iocp.sem h (some 0) }.goto t (.linking p h fileHandle key))) := by
  have kept : ∀ q port, w.iocp.portAt q = some port →
      Function.update w.iocp.portAt p (some ⟨h, none, none⟩) q = some port := by
    intro q port at_q
    rw [Function.update_of_ne, at_q]
    rintro rfl
    cases fresh.symm.trans at_q
  have noNull : w.iocp.repliedNull ({ w.iocp with
        portAt := Function.update w.iocp.portAt p (some ⟨h, none, none⟩)
        sem := Function.update w.iocp.sem h (some 0) }.goto t (.linking p h fileHandle key)) =
      false := by
    rw [State.repliedNull]
    simp [State.goto]
  refine ⟨⟨inv.consistent.single, fun a mem => ?_, fun made mem => ?_⟩, ?_⟩
  · obtain ⟨old, isOpen⟩ := inv.consistent.named a mem
    refine ⟨old, OpenPort.congr isOpen (kept a.port) fun h' object => ?_⟩
    have ne : h' ≠ h := by
      rintro rfl
      cases unused.symm.trans object
    exact (Function.update_of_ne ne ..).trans object
  · simp only [World.withIocp, noNull] at mem
    exact inv.consistent.unchanged made mem
  · refine calls_set inv (d := .linking p h fileHandle key) rfl ?_ (fun t' ne => ?_)
      (List.Subset.refl _) ?_
    · exact ⟨Function.update_self .., given, ⟨h, none, none⟩, Function.update_self .., rfl⟩
    · exact Function.update_of_ne ne ..
    · rintro q h' ⟨port, at_q, same⟩
      exact ⟨port, kept q port at_q, same⟩

/-! ## Runs -/

theorem WorldInv.create (inv : WorldInv w) {t : ℕ} {fileHandle existing : Handle} {key : ℕ}
    {sem : Option Handle} {mem : Option Addr}
    (created : w.create t fileHandle existing key sem mem = some w') : WorldInv w' := by
  obtain ⟨s', stepped, rest⟩ := Option.bind_eq_some_iff.mp created
  obtain ⟨idle, what⟩ := step_create stepped
  have begun := inv.begin idle
  have noPort : ∀ p, Function.update w.made t none t ≠ some p := by
    intro p
    rw [Function.update_self]
    rintro ⟨⟩
  rcases what with ⟨given, rfl⟩ | ⟨zero, lacking, error, rfl⟩ |
    ⟨zero, h, p, rfl, rfl, given, fresh, rfl⟩
  · rw [if_pos given] at rest
    obtain rfl := Option.some.inj rest
    exact begun.withPort [] given fun p eq => absurd eq (noPort p)
  · rw [if_neg (not_not.mpr zero)] at rest
    have failed : WorldInv ({ w with made := Function.update w.made t none }.withIocp t
        (w.iocp.reply t (.handle 0 error))) :=
      begun.withIocp (d := .idle) rfl trivial (List.Subset.refl _) rfl inv.consistent.single
        (fun a mem => Or.inl mem) fun _ => Function.update_self ..
    rcases lacking with rfl | rfl
    · obtain rfl := Option.some.inj rest
      exact failed
    · cases sem with
      | none =>
        obtain rfl := Option.some.inj rest
        exact failed
      | some h =>
        obtain rfl := Option.some.inj rest
        exact failed
  · rw [if_neg (not_not.mpr zero)] at rest
    simp only at rest
    split at rest
    · rename_i unused
      obtain rfl := Option.some.inj rest
      exact begun.make given fresh unused
    · cases rest

theorem step_worldInv {op : WorldAction} (inv : WorldInv w) (fits : w.StepFits op)
    (stepped : w.step op = some w') : WorldInv w' := by
  cases op with
  | create t fileHandle existing key sem mem => exact inv.create stepped
  | link t =>
    obtain ⟨s', taken, rfl⟩ := Option.map_eq_some_iff.mp stepped
    obtain ⟨p, h, fileHandle, key, at_t, rfl⟩ := step_link taken
    obtain ⟨made, given, portOf⟩ := inv.calls t _ at_t
    refine inv.withPort [p] given fun q eq => ?_
    obtain rfl : p = q := Option.some.inj (made.symm.trans eq)
    exact ⟨List.mem_cons_self .., portOf⟩
  | associate t mem =>
    obtain ⟨s', taken, rfl⟩ := Option.map_eq_some_iff.mp stepped
    obtain ⟨existing, fileHandle, key, at_t, rfl⟩ := step_associate taken
    obtain ⟨given, mine⟩ := inv.calls t _ at_t
    obtain ⟨stillOpen, succeeds⟩ := fits existing fileHandle key at_t
    rcases associate_cases w.iocp t existing fileHandle key mem with
      ⟨p, found, free, gotMem, eq⟩ | ⟨failed, error, eq⟩
    · obtain ⟨mem', port, at_p, same⟩ := findPort_spec found
      rw [eq]
      refine inv.withIocp (d := .idle) rfl trivial (List.Subset.refl _) rfl ?_ ?_ fun null => ?_
      · refine List.nodup_cons.mpr ⟨fun again => ?_, inv.consistent.single⟩
        obtain ⟨a, at_a, eq'⟩ := List.mem_map.mp again
        exact List.find?_eq_none.mp free a at_a (by simpa using eq')
      · intro a at_a
        rcases List.mem_cons.mp at_a with rfl | old
        · refine Or.inr ⟨mem', port, at_p, ?_⟩
          rw [same]
          exact stillOpen free gotMem p found
        · exact Or.inl old
      · obtain ⟨error, eq'⟩ := (repliedNull_reply w.iocp { w.iocp with
          assocs := ⟨fileHandle, p, key⟩ :: w.iocp.assocs } rfl t _).mp null
        cases eq'
        exact absurd rfl given
    · rw [eq]
      refine inv.withIocp (d := .idle) rfl trivial (List.Subset.refl _) rfl inv.consistent.single
        (fun a mem => Or.inl mem) fun _ => ?_
      by_contra made
      obtain ⟨p, isMade⟩ := Option.ne_none_iff_exists'.mp made
      obtain ⟨mem', port, at_p, same⟩ := mine p isMade
      obtain ⟨free, gotMem⟩ := succeeds made
      rcases failed with noPort | taken | noMem
      · exact findPort_ne_none mem' at_p same noPort
      · exact taken free
      · rw [gotMem] at noMem
        cases noMem
  | odinIocpRemove t hFile =>
    obtain ⟨s', taken, rfl⟩ := Option.map_eq_some_iff.mp stepped
    rcases step_odinIocpRemove taken with rfl | rfl
    · refine inv.withIocp (d := .idle) rfl trivial (List.Subset.refl _) rfl inv.consistent.single
        (fun a mem => Or.inl mem) fun null => ?_
      obtain ⟨error, eq⟩ := (repliedNull_reply w.iocp w.iocp rfl t _).mp null
      cases eq
    · refine inv.withIocp (d := .removing hFile) rfl trivial (List.Subset.refl _) rfl
        inv.consistent.single (fun a mem => Or.inl mem) fun null => ?_
      rw [repliedNull_goto] at null
      cases null
  | remove t =>
    obtain ⟨s', taken, rfl⟩ := Option.map_eq_some_iff.mp stepped
    obtain ⟨hFile, rfl⟩ := step_remove taken
    have less : (w.iocp.assocs.eraseP fun a => a.hFile == hFile).Sublist w.iocp.assocs :=
      List.eraseP_sublist
    refine inv.withIocp (d := .idle) rfl trivial (List.Subset.refl _) rfl
      ((less.map _).nodup inv.consistent.single) (fun a mem => Or.inl (less.subset mem))
      fun null => ?_
    obtain ⟨error, eq⟩ := (repliedNull_reply w.iocp { w.iocp with
      assocs := w.iocp.assocs.eraseP fun a => a.hFile == hFile } rfl t _).mp null
    cases eq
  | closeHandle h =>
    obtain rfl := Option.some.inj stepped
    have less : (w.closeHandle h).iocp.assocs.Sublist w.iocp.assocs := by
      simp only [World.closeHandle]
      split
      · exact List.eraseP_sublist
      · exact List.Sublist.refl _
    refine ⟨⟨(less.map _).nodup inv.consistent.single, fun a mem => ?_,
      inv.consistent.unchanged⟩, fun t c at_t => ?_⟩
    · obtain ⟨old, port, at_p, object⟩ := inv.consistent.named a (less.subset mem)
      refine ⟨old, port, at_p, ?_⟩
      exact (Function.update_of_ne (fits a (less.subset mem) port at_p) ..).trans object
    · exact (inv.calls t c at_t).mono (List.Subset.refl _) fun p h portOf => portOf
  | openHandle h file =>
    simp only [World.step] at stepped
    split at stepped
    · rename_i unused
      obtain rfl := Option.some.inj stepped
      refine ⟨⟨inv.consistent.single, fun a mem => ?_, inv.consistent.unchanged⟩, inv.calls⟩
      obtain ⟨old, port, at_p, object⟩ := inv.consistent.named a mem
      refine ⟨old, port, at_p, ?_⟩
      have ne : port.hSem ≠ h := by
        intro eq
        cases (eq ▸ unused).symm.trans object
      exact (Function.update_of_ne ne ..).trans object
    · cases stepped

/-- Ports, associations and handles agree over every run in which no port is closed under an
association, none is used whose handle has gone, and no second half fails after a first one
that made a port. -/
theorem run_consistent (threads : ℕ) (ops : List WorldAction) (w : World)
    (fits : StepRun.Meets World.step World.StepFits (world threads) ops)
    (ran : StepRun.run World.step ops (world threads) = some w) : w.Consistent :=
  (StepRun.run_keeps (fun _ _ _ => step_worldInv) (worldInv_init threads) fits ran).consistent

/-- A port, a file that is associated with it, and its close. -/
def openAndAssociate : List WorldAction :=
  [.openHandle 4 true, .create 0 4 0 7 (some 8) (some 100), .link 0, .associate 0 true,
    .closeHandle 4]

theorem openAndAssociate_fits :
    StepRun.Meets World.step World.StepFits (world 1) openAndAssociate := by
  refine (StepRun.meets_some rfl).mp ⟨trivial, (StepRun.meets_some rfl).mp ⟨trivial,
    (StepRun.meets_some rfl).mp ⟨trivial, (StepRun.meets_some rfl).mp ⟨?_,
    (StepRun.meets_some rfl).mp ⟨?_, trivial⟩⟩⟩⟩⟩
  · rintro existing fileHandle key ⟨⟩
    refine ⟨?_, fun _ => ⟨rfl, rfl⟩⟩
    rintro - - p ⟨⟩
    rfl
  · intro a mem port at_p
    obtain rfl := List.mem_singleton.mp mem
    cases at_p
    decide

theorem run_consistent_openAndAssociate :
    ∃ w, StepRun.run World.step openAndAssociate (world 1) = some w ∧ w.Consistent :=
  ⟨_, rfl, run_consistent 1 openAndAssociate _ openAndAssociate_fits rfl⟩

/-- The port is closed under its association. -/
def closedPort : List WorldAction :=
  [.openHandle 4 true, .create 0 4 0 7 (some 8) (some 100), .link 0, .associate 0 true,
    .closeHandle 8]

theorem closedPort_not_consistent : ¬ ∀ (threads : ℕ) (ops : List WorldAction) (w : World),
    StepRun.run World.step ops (world threads) = some w → w.Consistent := by
  intro all
  have consistent := all 1 closedPort _ rfl
  obtain ⟨-, port, at_p, object⟩ := consistent.named ⟨4, 100, 7⟩ (List.mem_cons_self ..)
  cases at_p
  cases object

end Odin32.Iocp
