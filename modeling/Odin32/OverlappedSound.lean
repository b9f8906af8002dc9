import Odin32.OverlappedOwners

/-! # Requests are not used after their deletion

One lemma for each kind of step, for a client and for a worker; then whole runs. What can go
wrong is a worker that deletes a request while a `CancelIo` has still to mark it. -/

set_option autoImplicit false

namespace Odin32.Overlapped

open LinkedList

theorem Call.owns_of_submits {c : Call} {a : Ref} (submits : c.submits = some a) :
    c.owns = some a := by
  cases c <;> first | exact submits | cases submits

section Steps

variable {s s' : State} {queue : Index → List Ref} {place : Ref → Option Place} {t : ℕ}
  {c c' : Call}

theorem Inv.fresh_set {heap' : Heap} (inv : Inv s queue place)
    (links : ∀ d ∈ s.calls, ∀ a, d.submits = some a →
      (heap' a).map AsyncIoRequest.next = (s.heap a).map AsyncIoRequest.next)
    (new : ∀ a, c'.submits = some a → ∃ r, heap' a = some r ∧ r.next = none) :
    ∀ d ∈ s.calls.set t c', ∀ a, d.submits = some a → ∃ r, heap' a = some r ∧ r.next = none := by
  intro d mem a submits
  rcases List.mem_or_eq_of_mem_set mem with old | rfl
  · obtain ⟨r, live, last⟩ := inv.fresh d old a submits
    have link := links d old a submits
    rw [live, Option.map_some, last] at link
    exact Option.map_eq_some_iff.mp link
  · exact new a submits

theorem Inv.go (inv : Inv s queue place) (at_t : s.calls[t]? = some c)
    (owns : c'.owns = c.owns) (borrows : ∀ b, c'.borrows = some b → c.borrows = some b)
    (submits : ∀ b, c'.submits = some b → c.submits = some b) :
    Inv (s.goto t c') queue place := by
  refine ⟨inv.lists, inv.owners.set_call_same at_t owns borrows, inv.heap, ?_, inv.logs, inv.safe⟩
  apply inv.fresh_set fun _ _ _ _ => rfl
  intro a new
  exact inv.fresh c (List.mem_of_getElem? at_t) a (submits a new)

theorem Inv.reply (inv : Inv s queue place) (at_t : s.calls[t]? = some c)
    (owns : c.owns = none) (r : Reply) : Inv (s.reply t r) queue place := by
  have idle : Inv (s.goto t .idle) queue place :=
    inv.go at_t owns.symm (fun _ eq => by cases eq) fun _ eq => by cases eq
  exact ⟨idle.lists, idle.owners, idle.heap, idle.fresh, idle.logs, idle.safe⟩

theorem Inv.store (inv : Inv s queue place) (ov : Addr) (internal internalHigh : ℕ) :
    Inv (s.store ov internal internalHigh) queue place :=
  ⟨inv.lists, inv.owners, inv.heap, inv.fresh, inv.logs, inv.safe⟩

theorem Inv.storeResult (inv : Inv s queue place) (p : Option Addr) (dwResult : ℕ) :
    Inv (s.storeResult p dwResult) queue place := by
  cases p with
  | none => exact inv
  | some p => exact ⟨inv.lists, inv.owners, inv.heap, inv.fresh, inv.logs, inv.safe⟩

theorem Inv.write (inv : Inv s queue place) {a : Ref} {r : AsyncIoRequest}
    (live : s.heap a = some r) {f : AsyncIoRequest → AsyncIoRequest} (link : (f r).next = r.next) :
    Inv { s with heap := Function.update s.heap a (some (f r)) } queue place := by
  have links : ∀ b, (Function.update s.heap a (some (f r)) b).map AsyncIoRequest.next =
      (s.heap b).map AsyncIoRequest.next := by
    intro b
    by_cases here : b = a
    · subst here
      rw [Function.update_self, live, Option.map_some, Option.map_some, link]
    · rw [Function.update_of_ne here]
  have dead : ∀ b, Function.update s.heap a (some (f r)) b = none ↔ s.heap b = none := by
    intro b
    have eq := congrArg Option.isNone (links b)
    rw [Option.isNone_map, Option.isNone_map] at eq
    rw [← Option.isNone_iff_eq_none, ← Option.isNone_iff_eq_none, eq]
  refine ⟨inv.lists.keep (fun _ b _ => links b) (fun _ _ => Iff.rfl) fun _ _ => rfl, inv.owners,
    inv.heap.keep dead fun _ => Iff.rfl, ?_, inv.logs, inv.safe⟩
  intro d mem b submits
  obtain ⟨r', live', last⟩ := inv.fresh d mem b submits
  have eq := links b
  rw [live', Option.map_some, last] at eq
  exact Option.map_eq_some_iff.mp eq

theorem Inv.submit (inv : Inv s queue place) (at_t : s.calls[t]? = some .idle) (index : Index)
    (dwAsyncType : ℕ) (hHandle : Handle) (lpdwResult lpOverlapped : Option Addr) (mem : Bool) :
    ∃ place', Inv (s.submit t index dwAsyncType hHandle lpdwResult lpOverlapped mem) queue
      place' := by
  unfold State.submit
  split
  · exact ⟨place, inv.reply at_t rfl _⟩
  rename_i ov
  split
  · exact ⟨place, inv.reply at_t rfl _⟩
  split
  · exact ⟨place, inv.reply at_t rfl _⟩
  split
  · exact ⟨place, inv.reply at_t rfl _⟩
  have nowhere : place s.allocated = none :=
    (inv.heap.live _).mpr (inv.heap.frontier _ (Nat.le_refl _)).1
  have off : ∀ i, ∀ a ∈ queue i, a ≠ s.allocated := by
    intro i a inside
    exact Nat.ne_of_lt (inv.queue_lt i a inside)
  refine ⟨Function.update place s.allocated (some (.client t)), ?_⟩
  refine ⟨?_, ?_, inv.heap.allocate _ _, ?_, inv.logs, inv.safe⟩
  · apply inv.lists.keep
    · intro i a inside
      exact congrArg (Option.map _) (Function.update_of_ne (off i a inside) ..)
    · intro i a
      by_cases here : a = s.allocated
      · subst here
        rw [Function.update_self, nowhere]
        simp
      · rw [Function.update_of_ne here]
    · intro a inside
      rw [Function.update_of_ne (off _ a inside)]
  · apply inv.owners.set_call at_t
    · intro b
      by_cases here : b = s.allocated
      · subst here
        rw [Function.update_self]
        simp [Call.owns]
      · rw [Function.update_of_ne here, inv.owners.owned t b]
        constructor
        · rintro ⟨d, at_d, owns⟩
          rw [at_t] at at_d
          cases at_d
          cases owns
        · intro owns
          exact absurd (Option.some.inj owns).symm here
    · intro b t' ne
      by_cases here : b = s.allocated
      · subst here
        rw [Function.update_self, nowhere]
        simp [Ne.symm ne]
      · rw [Function.update_of_ne here]
    · intro b w
      by_cases here : b = s.allocated
      · subst here
        rw [Function.update_self, nowhere]
        simp
      · rw [Function.update_of_ne here]
    · intro b borrows
      cases borrows
    · exact fun _ inside => inside
  · apply inv.fresh_set
    · intro d inside a submits
      have ne : a ≠ s.allocated := by
        rintro rfl
        obtain ⟨r, live, -⟩ := inv.fresh d inside _ submits
        rw [(inv.heap.frontier _ (Nat.le_refl _)).1] at live
        cases live
      change Option.map _ (Function.update s.heap s.allocated _ a) = _
      rw [Function.update_of_ne ne]
    · intro a submits
      cases submits
      exact ⟨_, Function.update_self .., rfl⟩

theorem Inv.delete (inv : Inv s queue place) (at_t : s.calls[t]? = some c) {a : Ref}
    {r : AsyncIoRequest} (live : s.heap a = some r) (owns : c.owns = some a)
    (done : c.submits = none) (owns' : c'.owns = none) (borrows' : c'.borrows = none)
    (submits' : c'.submits = none) :
    Inv ({ s with
      heap := Function.update s.heap a none, deletions := s.deletions ++ [a] }.goto t c') queue
        (Function.update place a none) := by
  have at_a := inv.owns_place at_t owns
  have off : ∀ i, a ∉ queue i := fun i mem => inv.lists.not_client mem t at_a
  refine ⟨?_, ?_, inv.heap.delete live, ?_, inv.logs, inv.safe⟩
  · apply inv.lists.keep
    · intro i b mem
      have ne : b ≠ a := by
        rintro rfl
        exact off i mem
      exact congrArg (Option.map _) (Function.update_of_ne ne ..)
    · intro i b
      by_cases here : b = a
      · subst here
        rw [Function.update_self, at_a]
        simp
      · rw [Function.update_of_ne here]
    · intro b mem
      rw [Function.update_of_ne]
      rintro rfl
      exact off _ mem
  · apply inv.owners.set_call at_t
    · intro b
      rw [owns']
      by_cases here : b = a
      · subst here
        rw [Function.update_self]
        simp
      · rw [Function.update_of_ne here, inv.owners.owned t b]
        simp [at_t, owns, Ne.symm here]
    · intro b t' ne
      by_cases here : b = a
      · subst here
        rw [Function.update_self, at_a]
        simp [Ne.symm ne]
      · rw [Function.update_of_ne here]
    · intro b w
      by_cases here : b = a
      · subst here
        rw [Function.update_self, at_a]
        simp
      · rw [Function.update_of_ne here]
    · intro b borrows
      rw [borrows'] at borrows
      cases borrows
    · exact fun _ mem => mem
  · apply inv.fresh_set
    · intro d mem b submits
      have ne : b ≠ a := by
        rintro rfl
        obtain ⟨t', at_t'⟩ := List.mem_iff_getElem?.mp mem
        have at_b := inv.owns_place at_t' (Call.owns_of_submits submits)
        rw [at_a] at at_b
        cases at_b
        rw [at_t] at at_t'
        cases at_t'
        rw [done] at submits
        cases submits
      change Option.map _ (Function.update s.heap a none b) = _
      rw [Function.update_of_ne ne]
    · intro b submits
      rw [submits'] at submits
      cases submits

theorem update_place_none_iff {a : Ref} {p : Place} (somewhere : place a ≠ none) (b : Ref) :
    Function.update place a (some p) b = none ↔ place b = none := by
  by_cases here : b = a
  · subst here
    rw [Function.update_self]
    simp [somewhere]
  · rw [Function.update_of_ne here]

theorem Inv.add (inv : Inv s queue place) {i : Index} {a : Ref} {ov : Addr}
    (at_t : s.calls[t]? = some (.adding i a ov)) (notBusy : i ≠ .busy)
    (done : Linked s s' i a (queue i)) :
    Inv ({ s' with added := Function.update s'.added i (s'.added i ++ [a]) }.goto t
      (.waking i a ov)) (Function.update queue i (queue i ++ [a]))
      (Function.update place a (some (.queue i))) := by
  have at_a : place a = some (.client t) := inv.owns_place at_t rfl
  have lists := inv.lists.link notBusy at_a done
  obtain ⟨heap', pending', rfl⟩ :
      ∃ heap' pending', s' = { s with heap := heap', pending := pending' } :=
    ⟨_, _, done.same⟩
  refine ⟨lists, ?_, ?_, ?_, inv.logs.add i a, inv.safe⟩
  · rw [Function.update_of_ne (Ne.symm notBusy)]
    apply inv.owners.set_call at_t
    · intro b
      by_cases here : b = a
      · subst here
        rw [Function.update_self]
        simp [Call.owns]
      · rw [Function.update_of_ne here, inv.owners.owned t b]
        simp [at_t, Call.owns, Ne.symm here]
    · intro b t' ne
      by_cases here : b = a
      · subst here
        rw [Function.update_self, at_a]
        simp [Ne.symm ne]
      · rw [Function.update_of_ne here]
    · intro b w
      by_cases here : b = a
      · subst here
        rw [Function.update_self, at_a]
        simp
      · rw [Function.update_of_ne here]
    · intro b borrows
      cases borrows
    · exact fun _ mem => mem
  · apply inv.heap.keep done.data.none_iff
    exact update_place_none_iff (by rw [at_a]; simp)
  · apply inv.fresh_set
    · intro d mem b submits
      have off : b ∉ queue i := by
        obtain ⟨t', at_t'⟩ := List.mem_iff_getElem?.mp mem
        intro inside
        exact inv.lists.not_client inside t'
          (inv.owns_place at_t' (Call.owns_of_submits submits))
      exact congrArg (Option.map _) (done.others b off)
    · intro b submits
      cases submits

theorem Inv.fresh_unlink (inv : Inv s queue place) {i : Index} {a : Ref} {l₁ l₂ : List Ref}
    (split : queue i = l₁ ++ a :: l₂) (done : Unlinked s s' i a l₁ l₂) :
    ∀ d ∈ s.calls, ∀ b, d.submits = some b →
      (s'.heap b).map AsyncIoRequest.next = (s.heap b).map AsyncIoRequest.next := by
  intro d mem b submits
  obtain ⟨t', at_t'⟩ := List.mem_iff_getElem?.mp mem
  have off : b ∉ l₁ := by
    intro inside
    have mem' : b ∈ queue i := by
      rw [split]
      exact List.mem_append_left _ inside
    exact inv.lists.not_client mem' t' (inv.owns_place at_t' (Call.owns_of_submits submits))
  rw [done.others b off]

theorem Inv.cancelQueued (inv : Inv s queue place) {i : Index} {a : Ref} {h : Handle}
    {l₁ l₂ : List Ref} (at_t : s.calls[t]? = some (.cancelling h i)) (notBusy : i ≠ .busy)
    (split : queue i = l₁ ++ a :: l₂) (done : Unlinked s s' i a l₁ l₂) :
    Inv ({ s' with cancelled := s'.cancelled ++ [a] }.goto t (.marking h i a))
      (Function.update queue i (l₁ ++ l₂)) (Function.update place a (some (.client t))) := by
  have mem_a : a ∈ queue i := by
    rw [split]
    simp
  have at_a : place a = some (.queue i) := (inv.lists.queued i a).mpr ⟨notBusy, mem_a⟩
  have lists : ListsOk s'.heap s'.pending (Function.update queue i (l₁ ++ l₂))
      (Function.update place a (some (.client t))) :=
    inv.lists.unlink split done (fun j => by rw [Function.update_self]; simp) fun b ne =>
      Function.update_of_ne ne ..
  have links := inv.fresh_unlink split done
  obtain ⟨heap', pending', rfl⟩ :
      ∃ heap' pending', s' = { s with heap := heap', pending := pending' } :=
    ⟨_, _, done.same⟩
  refine ⟨lists, ?_, ?_, ?_, inv.logs.cancel split, inv.safe⟩
  · rw [Function.update_of_ne (Ne.symm notBusy)]
    apply inv.owners.set_call at_t
    · intro b
      by_cases here : b = a
      · subst here
        rw [Function.update_self]
        simp [Call.owns, notBusy]
      · rw [Function.update_of_ne here, inv.owners.owned t b]
        simp [at_t, Call.owns, notBusy, Ne.symm here]
    · intro b t' ne
      by_cases here : b = a
      · subst here
        rw [Function.update_self, at_a]
        simp [Ne.symm ne]
      · rw [Function.update_of_ne here]
    · intro b w
      by_cases here : b = a
      · subst here
        rw [Function.update_self, at_a]
        simp
      · rw [Function.update_of_ne here]
    · intro b borrows
      cases i <;> first | exact absurd rfl notBusy | cases borrows
    · exact fun _ mem => mem
  · apply inv.heap.keep done.data.none_iff
    exact update_place_none_iff (by rw [at_a]; simp)
  · apply inv.fresh_set links
    intro b submits
    cases submits

theorem Inv.cancelBusy (inv : Inv s queue place) {a : Ref} {h : Handle} {l₁ l₂ : List Ref}
    (at_t : s.calls[t]? = some (.cancelling h .busy)) (split : queue .busy = l₁ ++ a :: l₂)
    (done : Unlinked s s' .busy a l₁ l₂) :
    Inv ({ s' with cancelled := s'.cancelled ++ [a] }.goto t (.marking h .busy a))
      (Function.update queue .busy (l₁ ++ l₂)) place := by
  have mem_a : a ∈ queue .busy := by
    rw [split]
    simp
  obtain ⟨w, at_a⟩ := inv.lists.busy a mem_a
  have lists : ListsOk s'.heap s'.pending (Function.update queue .busy (l₁ ++ l₂)) place :=
    inv.lists.unlink split done (fun j eq => by rw [at_a] at eq; cases eq) fun _ _ => rfl
  have links := inv.fresh_unlink split done
  obtain ⟨heap', pending', rfl⟩ :
      ∃ heap' pending', s' = { s with heap := heap', pending := pending' } :=
    ⟨_, _, done.same⟩
  have nodup := inv.lists.nodup .busy
  rw [split] at nodup
  have perm : (l₁ ++ a :: l₂).Perm (a :: (l₁ ++ l₂)) := List.perm_middle
  have gone : a ∉ l₁ ++ l₂ := (List.nodup_cons.mp (perm.nodup_iff.mp nodup)).1
  refine ⟨lists, ?_, ?_, ?_, inv.logs.cancel split, inv.safe⟩
  · rw [Function.update_self]
    apply inv.owners.set_call at_t
    · intro b
      rw [inv.owners.owned t b]
      simp [at_t, Call.owns]
    · exact fun _ _ _ => Iff.rfl
    · exact fun _ _ => Iff.rfl
    · intro b borrows
      cases borrows
      exact ⟨gone, w, at_a⟩
    · intro b mem
      rw [split]
      simp only [List.mem_append, List.mem_cons] at mem ⊢
      rcases mem with left | right
      · exact .inl left
      · exact .inr (.inr right)
  · exact inv.heap.keep done.data.none_iff fun _ => Iff.rfl
  · apply inv.fresh_set links
    intro b submits
    cases submits

theorem Inv.work (inv : Inv s queue place) {w : Index} {p : Worker}
    (holds : p.holds = (s.worker w).holds) (removed : ∀ b, p = .deleting b → b ∉ queue .busy) :
    Inv (s.work w p) queue place :=
  ⟨inv.lists, inv.owners.set_worker_same holds removed, inv.heap, inv.fresh, inv.logs, inv.safe⟩

theorem Inv.serve (inv : Inv s queue place) {w : Index} {a : Ref} {r : AsyncIoRequest}
    {rest : List Ref} (notBusy : w ≠ .busy) (free : (s.worker w).holds = none)
    (split : queue w = a :: rest) (live : s.heap a = some r) :
    Inv (({ s with
      heap := Function.update s.heap a (some { r with next := s.pending .busy })
      pending := Function.update (Function.update s.pending w r.next) .busy (some a)
      served := Function.update s.served w (s.served w ++ [a]) } : State).work w (.taken a))
      (Function.update (Function.update queue w rest) .busy (a :: queue .busy))
      (Function.update place a (some (.worker w))) := by
  have mem_a : a ∈ queue w := by
    rw [split]
    exact List.mem_cons_self ..
  have at_a : place a = some (.queue w) := (inv.lists.queued w a).mpr ⟨notBusy, mem_a⟩
  refine ⟨inv.lists.serve notBusy split live, ?_, ?_, ?_, ?_, inv.safe⟩
  · rw [Function.update_self]
    apply inv.owners.set_worker
    · intro b
      by_cases here : b = a
      · subst here
        rw [Function.update_self]
        simp [Worker.holds]
      · rw [Function.update_of_ne here, inv.owners.held w b, free]
        simp [Worker.holds, Ne.symm here]
    · intro b w' ne
      by_cases here : b = a
      · subst here
        rw [Function.update_self, at_a]
        simp [Ne.symm ne]
      · rw [Function.update_of_ne here]
    · intro b t'
      by_cases here : b = a
      · subst here
        rw [Function.update_self, at_a]
        simp
      · rw [Function.update_of_ne here]
    · intro d mem b borrows
      obtain ⟨off, w', at_w⟩ := inv.owners.borrowed d mem b borrows
      have ne : b ≠ a := by
        rintro rfl
        rw [at_a] at at_w
        cases at_w
      refine ⟨?_, w', ?_⟩
      · simp [ne, off]
      · rw [Function.update_of_ne ne, at_w]
    · apply removed_update
      · intro w' b at_w
        have ne : b ≠ a := by
          rintro rfl
          have at_b := inv.holds_place (w := w') (a := b) (by rw [at_w]; rfl)
          rw [at_a] at at_b
          cases at_b
        simp [ne, inv.owners.removed w' b at_w]
      · intro b eq
        cases eq
  · apply inv.heap.keep (sameData_update live _).none_iff
    exact update_place_none_iff (by rw [at_a]; simp)
  · intro d mem b submits
    obtain ⟨t', at_t'⟩ := List.mem_iff_getElem?.mp mem
    have at_b := inv.owns_place at_t' (Call.owns_of_submits submits)
    have ne : b ≠ a := by
      rintro rfl
      rw [at_a] at at_b
      cases at_b
    obtain ⟨r', live', last⟩ := inv.fresh d mem b submits
    exact ⟨r', (Function.update_of_ne ne ..).trans live', last⟩
  · exact (inv.logs.serve split).busy _

theorem Inv.remove (inv : Inv s queue place) {w : Index} {a : Ref} {l₁ l₂ : List Ref}
    (at_w : s.worker w = .removing a) (split : queue .busy = l₁ ++ a :: l₂)
    (done : Unlinked s s' .busy a l₁ l₂) :
    Inv (s'.work w (.deleting a)) (Function.update queue .busy (l₁ ++ l₂)) place := by
  have at_a : place a = some (.worker w) := inv.holds_place (by rw [at_w]; rfl)
  have lists : ListsOk s'.heap s'.pending (Function.update queue .busy (l₁ ++ l₂)) place :=
    inv.lists.unlink split done (fun j eq => by rw [at_a] at eq; cases eq) fun _ _ => rfl
  have links := inv.fresh_unlink split done
  obtain ⟨heap', pending', rfl⟩ :
      ∃ heap' pending', s' = { s with heap := heap', pending := pending' } :=
    ⟨_, _, done.same⟩
  have nodup := inv.lists.nodup .busy
  rw [split] at nodup
  have perm : (l₁ ++ a :: l₂).Perm (a :: (l₁ ++ l₂)) := List.perm_middle
  have gone : a ∉ l₁ ++ l₂ := (List.nodup_cons.mp (perm.nodup_iff.mp nodup)).1
  have sub : ∀ b ∈ l₁ ++ l₂, b ∈ queue .busy := by
    intro b mem
    rw [split]
    exact perm.mem_iff.mpr (List.mem_cons_of_mem a mem)
  refine ⟨lists, ?_, inv.heap.keep done.data.none_iff fun _ => Iff.rfl, ?_, inv.logs.busy _,
    inv.safe⟩
  · rw [Function.update_self]
    apply inv.owners.set_worker
    · intro b
      rw [inv.owners.held w b, at_w]
      rfl
    · exact fun _ _ _ => Iff.rfl
    · exact fun _ _ => Iff.rfl
    · intro d mem b borrows
      obtain ⟨off, w', at_w'⟩ := inv.owners.borrowed d mem b borrows
      exact ⟨fun mem' => off (sub b mem'), w', at_w'⟩
    · apply removed_update
      · intro w' b eq mem'
        exact inv.owners.removed w' b eq (sub b mem')
      · intro b eq
        cases eq
        exact gone
  · intro d mem b submits
    obtain ⟨r, live, last⟩ := inv.fresh d mem b submits
    have link := links d mem b submits
    rw [live, Option.map_some, last] at link
    exact Option.map_eq_some_iff.mp link

theorem Inv.workDelete (inv : Inv s queue place) {w : Index} {a : Ref} {r : AsyncIoRequest}
    (at_w : s.worker w = .deleting a) (live : s.heap a = some r)
    (alone : ∀ d ∈ s.calls, d.borrows ≠ some a) :
    Inv ({ s with
      heap := Function.update s.heap a none, deletions := s.deletions ++ [a] }.work w .looking)
        queue (Function.update place a none) := by
  have at_a : place a = some (.worker w) := inv.holds_place (by rw [at_w]; rfl)
  have off : ∀ i, a ∉ queue i := by
    intro i mem
    by_cases busy : i = .busy
    · subst busy
      exact inv.owners.removed w a at_w mem
    · rw [(inv.lists.queued i a).mpr ⟨busy, mem⟩] at at_a
      cases at_a
  refine ⟨?_, ?_, inv.heap.delete live, ?_, inv.logs, inv.safe⟩
  · apply inv.lists.keep
    · intro i b mem
      have ne : b ≠ a := by
        rintro rfl
        exact off i mem
      exact congrArg (Option.map _) (Function.update_of_ne ne ..)
    · intro i b
      by_cases here : b = a
      · subst here
        rw [Function.update_self, at_a]
        simp
      · rw [Function.update_of_ne here]
    · intro b mem
      rw [Function.update_of_ne]
      rintro rfl
      exact off _ mem
  · apply inv.owners.set_worker
    · intro b
      by_cases here : b = a
      · subst here
        rw [Function.update_self]
        simp [Worker.holds]
      · rw [Function.update_of_ne here, inv.owners.held w b, at_w]
        simp [Worker.holds, Ne.symm here]
    · intro b w' ne
      by_cases here : b = a
      · subst here
        rw [Function.update_self, at_a]
        simp [Ne.symm ne]
      · rw [Function.update_of_ne here]
    · intro b t'
      by_cases here : b = a
      · subst here
        rw [Function.update_self, at_a]
        simp
      · rw [Function.update_of_ne here]
    · intro d mem b borrows
      obtain ⟨off', w', at_w'⟩ := inv.owners.borrowed d mem b borrows
      have ne : b ≠ a := by
        rintro rfl
        exact alone d mem borrows
      exact ⟨off', w', by rw [Function.update_of_ne ne, at_w']⟩
    · apply removed_update inv.owners.removed
      intro b eq
      cases eq
  · intro d mem b submits
    obtain ⟨t', at_t'⟩ := List.mem_iff_getElem?.mp mem
    have at_b := inv.owns_place at_t' (Call.owns_of_submits submits)
    have ne : b ≠ a := by
      rintro rfl
      rw [at_a] at at_b
      cases at_b
    obtain ⟨r', live', last⟩ := inv.fresh d mem b submits
    exact ⟨r', (Function.update_of_ne ne ..).trans live', last⟩

end Steps

/-! ## Workers do not sleep over a request -/

/-- The list a call is to put a request on. -/
def Call.target : Call → Option Index
  | .resetting i _ _ => some i
  | .polling _ _ => some .poll
  | .adding i _ _ => some i
  | _ => none

structure Awake (s : State) : Prop where
  wake : ∀ i, i ≠ .busy → s.pending i ≠ none → s.worker i = .waiting →
    s.wakeup i = true ∨ ∃ a ov, .waking i a ov ∈ s.calls
  workers : ∀ i, s.worker i ≠ .exited ∧ (s.worker i = .absent ↔ s.device.workers i = .absent)
  exit : s.hEventExit = false
  targets : ∀ c ∈ s.calls, ∀ i, c.target = some i → s.device.workers i ≠ .absent
  lists : ∀ i, i ≠ .busy → s.pending i ≠ none → s.device.workers i ≠ .absent
  waits : ∀ w a ov n, s.worker w = .pollWaiting a ov n → n ≠ infinite

theorem Device.workers_busy (d : Device) : d.workers .busy = .absent := rfl

theorem Device.writeIndex_worker (d : Device) : d.workers d.writeIndex ≠ .absent := by
  obtain ⟨writes, polls, full⟩ := d
  cases writes <;> cases polls <;> cases full <;> decide

theorem Device.workers_ne_exited (d : Device) (i : Index) : d.workers i ≠ .exited := by
  cases i <;> simp only [Device.workers] <;> first | (split <;> simp) | simp

theorem Device.workers_waiting (d : Device) (i : Index) :
    d.workers i = .waiting ∨ d.workers i = .absent := by
  cases i <;> simp only [Device.workers] <;> first | (split <;> simp) | simp

theorem awake_init (device : Device) (threads : ℕ) (overlapped : Addr → OverlappedIo) :
    Awake (init device threads overlapped) := by
  refine ⟨?_, fun i => ⟨device.workers_ne_exited i, Iff.rfl⟩, rfl, ?_, ?_, ?_⟩
  · intro i _ some
    exact absurd rfl some
  · intro c mem i target
    rw [List.eq_of_mem_replicate mem] at target
    cases target
  · intro i _ some
    exact absurd rfl some
  · intro w a ov n eq
    rcases device.workers_waiting w with waiting | absent
    · cases waiting.symm.trans eq
    · cases absent.symm.trans eq

theorem mem_set_of_ne {calls : List Call} {t : ℕ} {c c' d : Call} (at_t : calls[t]? = some c)
    (mem : d ∈ calls) (ne : d ≠ c) : d ∈ calls.set t c' := by
  obtain ⟨t', at_t'⟩ := List.mem_iff_getElem?.mp mem
  have apart : t ≠ t' := by
    rintro rfl
    rw [at_t] at at_t'
    cases at_t'
    exact ne rfl
  apply List.mem_iff_getElem?.mpr
  exact ⟨t', by rw [List.getElem?_set_ne apart, at_t']⟩

section Progress

variable {s s' : State} {t : ℕ} {c c' : Call} {w : Index} {p : Worker}

theorem Awake.client (awake : Awake s) (at_t : s.calls[t]? = some c)
    (device : s'.device = s.device) (worker : s'.worker = s.worker)
    (exit : s'.hEventExit = s.hEventExit) (calls : s'.calls = s.calls.set t c')
    (wakeup : ∀ i, s.wakeup i = true → s'.wakeup i = true)
    (pending : ∀ i, i ≠ .busy → s'.pending i ≠ none → s.pending i ≠ none ∨
      s.device.workers i ≠ .absent ∧ ∃ a ov, c' = .waking i a ov)
    (woken : ∀ i a ov, c = .waking i a ov → s'.wakeup i = true)
    (target : ∀ i, c'.target = some i → s.device.workers i ≠ .absent) : Awake s' := by
  have lt : t < s.calls.length := (List.getElem?_eq_some_iff.mp at_t).1
  constructor
  case wake =>
    intro i notBusy some waiting
    rw [worker] at waiting
    rcases pending i notBusy some with old | ⟨-, a, ov, rfl⟩
    · rcases awake.wake i notBusy old waiting with set | ⟨a, ov, mem⟩
      · exact .inl (wakeup i set)
      · by_cases here : Call.waking i a ov = c
        · exact .inl (woken i a ov here.symm)
        · refine .inr ⟨a, ov, ?_⟩
          rw [calls]
          exact mem_set_of_ne at_t mem here
    · refine .inr ⟨a, ov, ?_⟩
      rw [calls]
      exact List.mem_set lt _
  case workers =>
    intro i
    rw [worker, device]
    exact awake.workers i
  case exit => rw [exit, awake.exit]
  case targets =>
    intro d mem i eq
    rw [calls] at mem
    rw [device]
    rcases List.mem_or_eq_of_mem_set mem with old | rfl
    · exact awake.targets d old i eq
    · exact target i eq
  case lists =>
    intro i notBusy some
    rw [device]
    rcases pending i notBusy some with old | ⟨present, -⟩
    · exact awake.lists i notBusy old
    · exact present
  case waits =>
    intro w a ov n eq
    rw [worker] at eq
    exact awake.waits w a ov n eq

theorem Awake.go (awake : Awake s) (at_t : s.calls[t]? = some c)
    (quiet : ∀ i a ov, c ≠ .waking i a ov)
    (target : ∀ i, c'.target = some i → s.device.workers i ≠ .absent) :
    Awake (s.goto t c') :=
  awake.client at_t rfl rfl rfl rfl (fun _ set => set) (fun _ _ some => .inl some)
    (fun i a ov eq => absurd eq (quiet i a ov)) target

theorem Awake.reply (awake : Awake s) (at_t : s.calls[t]? = some c)
    (quiet : ∀ i a ov, c ≠ .waking i a ov) (r : Reply) : Awake (s.reply t r) :=
  awake.client at_t rfl rfl rfl rfl (fun _ set => set) (fun _ _ some => .inl some)
    (fun i a ov eq => absurd eq (quiet i a ov)) fun _ eq => by cases eq

theorem Awake.worker (awake : Awake s) (device : s'.device = s.device)
    (worker : s'.worker = Function.update s.worker w p) (exit : s'.hEventExit = s.hEventExit)
    (calls : s'.calls = s.calls) (wakeup : ∀ i, i ≠ w → s'.wakeup i = s.wakeup i)
    (pending : ∀ i, i ≠ .busy → s'.pending i ≠ none → s.pending i ≠ none)
    (was : s.worker w ≠ .absent) (present : p ≠ .absent) (runs : p ≠ .exited)
    (waits : ∀ a ov n, p = .pollWaiting a ov n → n ≠ infinite)
    (asleep : p = .waiting → s'.pending w = none) : Awake s' := by
  constructor
  case wake =>
    intro i notBusy some waiting
    rw [worker] at waiting
    by_cases same : i = w
    · subst same
      rw [Function.update_self] at waiting
      exact absurd (asleep waiting) some
    · rw [Function.update_of_ne same] at waiting
      rw [wakeup i same, calls]
      exact awake.wake i notBusy (pending i notBusy some) waiting
  case workers =>
    intro i
    rw [worker, device]
    by_cases same : i = w
    · subst same
      rw [Function.update_self]
      refine ⟨runs, fun eq => absurd eq present, fun eq => ?_⟩
      exact absurd ((awake.workers i).2.mpr eq) was
    · rw [Function.update_of_ne same]
      exact awake.workers i
  case exit => rw [exit, awake.exit]
  case targets =>
    intro d mem i eq
    rw [calls] at mem
    rw [device]
    exact awake.targets d mem i eq
  case lists =>
    intro i notBusy some
    rw [device]
    exact awake.lists i notBusy (pending i notBusy some)
  case waits =>
    intro w' a ov n eq
    rw [worker] at eq
    by_cases same : w' = w
    · subst same
      rw [Function.update_self] at eq
      exact waits a ov n eq
    · rw [Function.update_of_ne same] at eq
      exact awake.waits w' a ov n eq

theorem Awake.work (awake : Awake s) (was : s.worker w ≠ .absent) (present : p ≠ .absent)
    (runs : p ≠ .exited) (waits : ∀ a ov n, p = .pollWaiting a ov n → n ≠ infinite)
    (asleep : p = .waiting → s.pending w = none) : Awake (s.work w p) :=
  awake.worker rfl rfl rfl rfl (fun _ _ => rfl) (fun _ _ some => some) was present runs waits
    asleep

end Progress

end Odin32.Overlapped
