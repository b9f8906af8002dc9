import Odin32.SwpHeapRun

/-! # States of the swappable heap

What holds of every state a run of calls reaches from a heap that `swpHeapInit` has made. -/

set_option autoImplicit false

namespace Odin32.SwpHeap
open Odin32.RankedTree Odin32.Avl Odin32.AvlOps Odin32.AvlTable Odin32.FreeSize Odin32.HeapBlocks
open Odin32.MemblockPool Odin32.Tiling Odin32.Word

variable {debug : Bool} {lost : List ℕ} {h h' : SwpHeap} {a : Answers}

/-- Before the first call there is nothing. -/
def noHeap (cbSwpHeapMax : ℕ) : SwpHeap := ⟨[], cbSwpHeapMax, []⟩

theorem noHeap_ok (debug : Bool) (cbSwpHeapMax : ℕ) : HeapOk debug [] (noHeap cbSwpHeapMax) :=
  ⟨fun _ there => absurd there List.not_mem_nil, List.Pairwise.nil,
    ⟨fun _ there => absurd there List.not_mem_nil, List.Pairwise.nil⟩, List.Perm.refl _⟩

theorem init_ok {cbSizeInit cbSizeMax : ℕ} (sound : a.Sound (noHeap cbSizeMax))
    (done : swpHeapInit a cbSizeInit cbSizeMax = .ok (some h)) : HeapOk debug [] h := by
  obtain ⟨chunks, pmb, allocated_, pool, marks, -⟩ :=
    allocate_spec (noHeap_ok debug cbSizeMax).pool sound.chunk
  have allocated_ : swpAllocateMemblock a.chunk [] = some (chunks, pmb) := allocated_
  unfold swpHeapInit at done
  rw [allocated_] at done
  dsimp only [orTrap, bind, Except.bind] at done
  cases pmb with
  | none => cases done
  | some pmbFree =>
    cases anchor : a.anchor with
    | none =>
      rw [anchor] at done
      cases done
    | some pha =>
      cases given : a.block (max blockSize cbSizeInit) with
      | none =>
        rw [anchor, given] at done
        cases done
      | some pvBlock =>
        rw [anchor, given] at done
        dsimp only at done
        cases inserted : insertFree 0 ⟨pmbFree, pvBlock, max blockSize cbSizeInit⟩ .empty with
        | none =>
          rw [inserted] at done
          cases done
        | some r =>
          obtain ⟨trees, released⟩ := r
          rw [inserted] at done
          cases done
          obtain ⟨pos, page, word, -⟩ := sound.block _ _ given
          have large : least debug ≤ max blockSize cbSizeInit := by
            have leastEq : least debug = max 1 (cbSignatures debug) := rfl
            have signatures := signatures_le debug
            unfold blockSize
            omega
          have laid : Laid 0 (least debug) pvBlock (pvBlock + max blockSize cbSizeInit)
              [⟨pmbFree, pvBlock, max blockSize cbSizeInit⟩] := by
            refine ⟨tiles_one rfl rfl (by omega), List.nodup_singleton _, fun b there => ?_, word⟩
            rw [List.mem_singleton.1 there]
            exact large
          have opened : Opened debug [] ([], ⟨pha, pvBlock, max blockSize cbSizeInit, trees⟩, [])
              .empty chunks [] [] [⟨pmbFree, pvBlock, max blockSize cbSizeInit⟩] :=
            ⟨fun _ there => absurd there List.not_mem_nil, List.pairwise_singleton _ _, page,
              ⟨⟨indexed_nil, sizeOk_nil, List.Perm.refl _⟩, indexed_nil, rfl, rfl, laid,
                fun _ there => absurd there List.not_mem_nil⟩, pool, marks⟩
          obtain ⟨F, opened', -⟩ := opened.insertFree inserted
          exact opened'.close (noHeap cbSizeMax)

/-! ## Giving back anchors -/

/-- No anchor behind the first one is without blocks in use. -/
def NoneEmpty (h : SwpHeap) : Prop := ∀ pha ∈ h.anchors.tail, pha.trees.cbUsed ≠ 0

theorem heapmin_ok (ok : HeapOk debug lost h) :
    ∃ left, HeapOk debug (left ++ lost) (swpHeapmin h) ∧ (NoneEmpty h → left = []) := by
  obtain ⟨pool, marks⟩ := minChunks_spec ok.pool
  obtain ⟨anchors, cbSwpHeapMax, chunks⟩ := h
  cases anchors with
  | nil =>
    refine ⟨[], ⟨ok.anchor, ok.apart, pool, ?_⟩, fun _ => rfl⟩
    show (allocated (minChunks chunks)).Perm _
    rw [marks]
    exact ok.nodes
  | cons first rest =>
    refine ⟨(rest.filter fun other => !decide (other.trees.cbUsed ≠ 0)).flatMap
      fun pha => nodes pha.trees, ⟨?_, ?_, pool, ?_⟩, fun full => ?_⟩
    · intro pha there
      refine ok.anchor pha ?_
      rcases List.mem_cons.1 there with rfl | there
      · exact List.mem_cons_self
      · exact List.mem_cons_of_mem _ (List.mem_of_mem_filter there)
    · obtain ⟨apart, later⟩ := List.pairwise_cons.1 ok.apart
      exact List.pairwise_cons.2 ⟨fun pha there => apart pha (List.mem_of_mem_filter there),
        later.filter _⟩
    · show (allocated (minChunks chunks)).Perm _
      rw [marks]
      refine ok.nodes.trans (List.perm_iff_count.2 fun x => ?_)
      have split := ((List.filter_append_perm (fun other : HeapAnchor =>
        decide (other.trees.cbUsed ≠ 0)) rest).flatMap_right fun pha => nodes pha.trees).count_eq x
      rw [List.flatMap_append, List.count_append] at split
      simp only [swpHeapmin, minAnchors, List.flatMap_cons, List.count_append]
      omega
    · rw [List.filter_eq_nil_iff.2]
      · rfl
      · intro pha there
        have used := full pha there
        simp [used]

/-! ## Runs -/

/-- What a call may ask for: a size that is not rounded to nothing and does not wrap. -/
def Proper (debug : Bool) : Op → SwpHeap → Prop
  | .malloc cbSize, _ => MallocPlain debug cbSize
  | .realloc pv cbNew, h => ReallocPlain debug pv cbNew h
  | .free _, _ => True
  | .heapmin, _ => True

/-- The states of runs whose calls all meet a condition. -/
inductive Reached (debug : Bool) (meets : Op → SwpHeap → Prop) : SwpHeap → Prop
  | init {a : Answers} {cbSizeInit cbSizeMax : ℕ} {h : SwpHeap} (sound : a.Sound (noHeap cbSizeMax))
      (done : swpHeapInit a cbSizeInit cbSizeMax = .ok (some h)) : Reached debug meets h
  | step {h : SwpHeap} {a : Answers} {op : Op} {h' : SwpHeap} {ret : Option ℕ}
      (reached : Reached debug meets h) (sound : a.Sound h) (met : meets op h)
      (done : SwpHeap.step debug a op h = .ok (h', ret)) : Reached debug meets h'

theorem Returned.heapOk {starved plain : Prop} {accepts : HeapAnchor → Memblock → Prop}
    {ret : Option ℕ} (returned : Returned debug lost h starved plain accepts (.ok (h', ret)))
    (plain_ : plain) : HeapOk debug lost h' := by
  cases returned with
  | null fed ok same => exact ok
  | block fed answered => exact (answered plain_).ok

theorem step_ok (ok : HeapOk debug lost h) (sound : a.Sound h) {op : Op} (proper : Proper debug op h)
    {ret : Option ℕ} (done : step debug a op h = .ok (h', ret)) :
    ∃ left, HeapOk debug (left ++ lost) h' ∧ ((op = .heapmin → NoneEmpty h) → left = []) := by
  cases op with
  | malloc cbSize =>
    have returned := smalloc_spec ok sound cbSize
    have done : smalloc debug a cbSize h = .ok (h', ret) := done
    rw [done] at returned
    exact ⟨[], returned.heapOk proper, fun _ => rfl⟩
  | realloc pv cbNew =>
    have returned := srealloc_spec ok sound pv cbNew
    have done : srealloc debug a pv cbNew h = .ok (h', ret) := done
    rw [done] at returned
    exact ⟨[], returned.heapOk proper, fun _ => rfl⟩
  | free pv =>
    have freed := sfree_spec ok pv
    have done : (sfree debug pv h).map (fun heap => (heap, none)) = .ok (h', ret) := done
    generalize sfree debug pv h = r at freed done
    cases freed with
    | overrun => cases done
    | ok ok' kept =>
      cases done
      exact ⟨[], ok', fun _ => rfl⟩
  | heapmin =>
    cases done
    obtain ⟨left, ok', none_⟩ := heapmin_ok ok
    exact ⟨left, ok', fun full => none_ (full rfl)⟩

theorem reached_ok (reached : Reached debug (Proper debug) h) : ∃ lost, HeapOk debug lost h := by
  induction reached with
  | init sound done => exact ⟨[], init_ok sound done⟩
  | step _ sound met done ih =>
    obtain ⟨lost, ok⟩ := ih
    obtain ⟨left, ok', -⟩ := step_ok ok sound met done
    exact ⟨left ++ lost, ok'⟩

end Odin32.SwpHeap
