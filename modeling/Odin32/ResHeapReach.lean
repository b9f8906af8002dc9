import Odin32.ResHeapCalls

/-! # States of the resident heap

What holds of every state a run of calls reaches from a heap that `resHeapInit` has made. The calls
keep the tiling of the anchors but for one case: a new anchor block is rounded up for the two
headers and the request only, and when that leaves less than the anchor and the least free block
take, the two blocks of the anchor overlap. -/

set_option autoImplicit false

namespace Odin32.ResHeap
open Odin32.RankedTree Odin32.AvlTable Odin32.FreeSize Odin32.HeapBlocks Odin32.Tiling Odin32.Word

variable {debug : Bool} {h h' : ResHeap} {a : Answers}

/-- Before the first call there is nothing. -/
def noHeap (cbResHeapMax : ℕ) : ResHeap := ⟨[], cbResHeapMax⟩

theorem init_ok {cbSizeInit cbSizeMax : ℕ} (sound : a.Sound (noHeap cbSizeMax))
    (done : resHeapInit debug a cbSizeInit cbSizeMax = .ok (some h)) : HeapOk debug h := by
  unfold resHeapInit at done
  dsimp only at done
  cases answer : a.block (max blockSize cbSizeInit) with
  | none =>
    rw [answer] at done
    cases done
  | some pha =>
    rw [answer] at done
    dsimp only at done
    obtain ⟨-, page, word, -⟩ := sound.block _ _ answer
    have header := cbHdr_le debug
    have anchor : cbHeapAnchor debug ≤ 36 := by cases debug <;> decide
    have least : cbLeast = 16 := rfl
    have size : 0x40000 ≤ max blockSize cbSizeInit := Nat.le_max_left _ _
    have one : sub32 (max blockSize cbSizeInit) (cbHeapAnchor debug) =
      max blockSize cbSizeInit - cbHeapAnchor debug := sub32_of_le (by omega) (by omega)
    have two : sub32 (max blockSize cbSizeInit - cbHeapAnchor debug) (cbHdr debug) =
      max blockSize cbSizeInit - cbHeapAnchor debug - cbHdr debug :=
        sub32_of_le (by omega) (by omega)
    have start : add32 pha (cbHeapAnchor debug) = pha + cbHeapAnchor debug :=
      add32_of_lt (by omega)
    rw [one, two, start] at done
    generalize max blockSize cbSizeInit = cbSize at *
    cases inserted : insertFree (cbHdr debug) (blockAt (pha + cbHeapAnchor debug)
        (cbSize - cbHeapAnchor debug - cbHdr debug)) .empty with
    | none =>
      rw [inserted] at done
      cases done
    | some r =>
      obtain ⟨trees, released⟩ := r
      rw [inserted] at done
      cases done
      have laid : Laid (cbHdr debug) cbLeast (pha + cbHeapAnchor debug) (pha + cbSize)
          [blockAt (pha + cbHeapAnchor debug) (cbSize - cbHeapAnchor debug - cbHdr debug)] := by
        refine ⟨tiles_one rfl ?_ (by omega), List.nodup_singleton _, fun b there => ?_, word⟩
        · show pha + cbHeapAnchor debug + cbHdr debug +
            (cbSize - cbHeapAnchor debug - cbHdr debug) = _
          omega
        · rw [List.mem_singleton.1 there]
          show cbLeast ≤ cbSize - cbHeapAnchor debug - cbHdr debug
          omega
      have opened : Opened debug ([], ⟨pha, cbSize, trees⟩, []) .empty [] []
          [blockAt (pha + cbHeapAnchor debug) (cbSize - cbHeapAnchor debug - cbHdr debug)] :=
        ⟨fun _ there => absurd there List.not_mem_nil, List.pairwise_singleton _ _, page,
          ⟨⟨indexed_nil, sizeOk_nil, List.Perm.refl _⟩, indexed_nil, rfl, rfl, laid,
            fun _ there => absurd there List.not_mem_nil⟩,
          fun b there => by rw [List.mem_singleton.1 there]; rfl⟩
      obtain ⟨F', opened'⟩ := opened.insertFree inserted
      exact opened'.close (noHeap cbSizeMax)

theorem heapmin_ok (ok : HeapOk debug h) : HeapOk debug (resHeapmin h) := by
  obtain ⟨anchors, cbResHeapMax⟩ := h
  cases anchors with
  | nil => exact ok
  | cons first rest =>
    refine ⟨fun pha there => ok.anchor pha ?_, ?_⟩
    · rcases List.mem_cons.1 there with rfl | there
      · exact List.mem_cons_self
      · exact List.mem_cons_of_mem _ (List.mem_of_mem_filter there)
    · obtain ⟨apart, later⟩ := List.pairwise_cons.1 ok.apart
      exact List.pairwise_cons.2 ⟨fun pha there => apart pha (List.mem_of_mem_filter there),
        later.filter _⟩

/-! ## Runs -/

/-- The call adds no anchor that its request leaves too little room in. -/
def Uncrowded (debug : Bool) (a : Answers) : Op → ResHeap → Prop
  | .malloc cbSize, h => ¬MallocCrowded debug a cbSize h
  | .realloc pv cbNew, h => ¬ReallocCrowded debug a pv cbNew h
  | .free _, _ => True
  | .heapmin, _ => True

/-- The states of runs whose calls all meet a condition. -/
inductive Reached (debug : Bool) (meets : Answers → Op → ResHeap → Prop) : ResHeap → Prop
  | init {a : Answers} {cbSizeInit cbSizeMax : ℕ} {h : ResHeap} (sound : a.Sound (noHeap cbSizeMax))
      (done : resHeapInit debug a cbSizeInit cbSizeMax = .ok (some h)) : Reached debug meets h
  | step {h : ResHeap} {a : Answers} {op : Op} {h' : ResHeap} {ret : Option ℕ}
      (reached : Reached debug meets h) (sound : a.Sound h) (met : meets a op h)
      (done : ResHeap.step debug a op h = .ok (h', ret)) : Reached debug meets h'

theorem Returned.heapOk {crowded : Prop} {cb : ℕ} {ret : Option ℕ} (ok : HeapOk debug h)
    (returned : Returned debug h crowded cb (.ok (h', ret))) : HeapOk debug h' := by
  cases returned with
  | null => exact ok
  | block answered => exact answered.ok

theorem step_ok (ok : HeapOk debug h) (sound : a.Sound h) {op : Op} {ret : Option ℕ}
    (done : step debug a op h = .ok (h', ret)) : HeapOk debug h' := by
  cases op with
  | malloc cbSize =>
    have returned := (rmalloc_spec ok sound cbSize).1
    have done : rmalloc debug a cbSize h = .ok (h', ret) := done
    rw [done] at returned
    exact returned.heapOk ok
  | realloc pv cbNew =>
    have returned := rrealloc_spec ok sound pv cbNew
    have done : rrealloc debug a pv cbNew h = .ok (h', ret) := done
    rw [done] at returned
    exact returned.heapOk ok
  | free pv =>
    have freed := rfree_spec ok pv
    have done : (rfree debug pv h).map (fun heap => (heap, none)) = .ok (h', ret) := done
    generalize rfree debug pv h = r at freed done
    cases freed with
    | overrun => cases done
    | ok ok' kept =>
      cases done
      exact ok'
  | heapmin =>
    cases done
    exact heapmin_ok ok

theorem reached_ok {meets : Answers → Op → ResHeap → Prop} (reached : Reached debug meets h) :
    HeapOk debug h := by
  induction reached with
  | init sound done => exact init_ok sound done
  | step _ sound met done ih => exact step_ok ih sound done

theorem Returned.not_overlap {crowded : Prop} {cb cbFree : ℕ} {r : Except Trap (ResHeap × Option ℕ)}
    (returned : Returned debug h crowded cb r) (roomy : ¬crowded) :
    r ≠ .error (.overlap cbFree) := by
  rintro rfl
  cases returned with
  | overlap crowded_ => exact roomy crowded_

theorem rfree_not_overlap (ok : HeapOk debug h) (pv : ℕ) {cbFree : ℕ} :
    (rfree debug pv h).map (fun heap => (heap, (none : Option ℕ))) ≠
      .error (.overlap cbFree) := by
  have freed := rfree_spec ok pv
  generalize rfree debug pv h = r at freed ⊢
  intro stopped
  cases freed with
  | ok ok' kept => cases stopped
  | overrun => cases stopped

theorem step_not_overlap (ok : HeapOk debug h) (sound : a.Sound h) {op : Op}
    (roomy : Uncrowded debug a op h) {cbFree : ℕ} :
    step debug a op h ≠ .error (.overlap cbFree) := by
  cases op with
  | malloc cbSize => exact (rmalloc_spec ok sound cbSize).1.not_overlap roomy
  | realloc pv cbNew => exact (rrealloc_spec ok sound pv cbNew).not_overlap roomy
  | free pv => exact rfree_not_overlap ok pv
  | heapmin => exact fun stopped => by cases stopped

theorem reached_tiled (reached : Reached debug (Uncrowded debug) h) :
    HeapOk debug h ∧ ∀ a op, a.Sound h → Uncrowded debug a op h → ∀ cbFree,
      step debug a op h ≠ .error (.overlap cbFree) := by
  have ok := reached_ok reached
  exact ⟨ok, fun a op sound roomy cbFree => step_not_overlap ok sound roomy⟩

/-! ## A block that does not fit in its anchor -/

/-- Memory for blocks of 256KB at one address. -/
def blockAnswers (pha : ℕ) : Answers := ⟨fun cb => if cb = 0x40000 then some pha else none⟩

theorem blockAnswers_sound {pha : ℕ} (page : 0x1000 ≤ pha) (word : pha + 0x40000 < 0x100000000)
    (outside : ∀ other ∈ h.anchors, pha + 0x40000 ≤ other.pha ∨ other.last ≤ pha) :
    (blockAnswers pha).Sound h where
  block cb pha' given := by
    unfold blockAnswers at given
    dsimp only at given
    split_ifs at given with size
    obtain rfl := Option.some.inj given
    exact ⟨by omega, page, by omega, fun other there => by rw [size]; exact outside other there⟩

/-- The release heap of one block of 256KB. -/
def sampleHeap : ResHeap :=
  ⟨[⟨0x100000, 0x40000, ⟨.node 0x100020 ⟨0x100020, 0x100020, 0x3ffcc⟩ 1 .nil .nil,
    .node 0x3ffcc (⟨0x100020, 0x100020, 0x3ffcc⟩, []) 1 .nil .nil, 0x3ffcc, .nil, 0⟩⟩], 0x1000000⟩

theorem sampleHeap_init :
    resHeapInit false (blockAnswers 0x100000) 0 0x1000000 = .ok (some sampleHeap) := rfl

theorem sampleHeap_reached (meets : Answers → Op → ResHeap → Prop) :
    Reached false meets sampleHeap :=
  .init (blockAnswers_sound (by decide) (by decide) fun _ there => absurd there List.not_mem_nil)
    sampleHeap_init

theorem secondBlock_sound : (blockAnswers 0x200000).Sound sampleHeap := by
  refine blockAnswers_sound (by decide) (by decide) fun other there => ?_
  obtain rfl := List.mem_singleton.1 there
  exact .inr (by decide)

/-- The heap as it is made, and a block that finds its room in the first anchor. -/
theorem sampleHeap_tiled : HeapOk false sampleHeap ∧
    ∀ cbFree, step false (blockAnswers 0x200000) (.malloc 8) sampleHeap ≠
      .error (.overlap cbFree) := by
  have tiled := reached_tiled (sampleHeap_reached (Uncrowded false))
  have roomy : ¬MallocCrowded false (blockAnswers 0x200000) 8 sampleHeap := by decide +kernel
  exact ⟨tiled.1, tiled.2 _ _ secondBlock_sound roomy⟩

/-- Requests below a gigabyte. -/
def Moderate : Answers → Op → ResHeap → Prop
  | _, .malloc cbSize, _ => cbSize < 0x40000000
  | _, .realloc _ cbNew, _ => cbNew < 0x40000000
  | _, .free _, _ => True
  | _, .heapmin, _ => True

/-- The free block before 0x3ffd0 bytes in an anchor of 0x40000 would have 24 bytes less than
none. -/
theorem reached_not_tiled :
    ¬∀ debug h, Reached debug Moderate h → HeapOk debug h ∧
      ∀ a op, a.Sound h → Moderate a op h → ∀ cbFree,
        step debug a op h ≠ .error (.overlap cbFree) := by
  intro always
  have tiled := (always false sampleHeap (sampleHeap_reached Moderate)).2
  have moderate : Moderate (blockAnswers 0x200000) (.malloc 0x3ffc0) sampleHeap := by
    show 0x3ffc0 < 0x40000000
    decide
  have overlap : step false (blockAnswers 0x200000) (.malloc 0x3ffc0) sampleHeap =
      .error (.overlap 0xffffffe8) := by
    decide +kernel
  exact tiled _ _ secondBlock_sound moderate _ overlap

end Odin32.ResHeap
