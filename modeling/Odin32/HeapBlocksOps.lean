import Odin32.HeapBlocksHold

/-! # Operations on the blocks of an anchor

What each operation does to the lists of free blocks, of blocks in use and of blocks on their way
between the two. -/

set_option autoImplicit false

namespace Odin32.HeapBlocks
open Odin32.RankedTree Odin32.Avl Odin32.AvlOps Odin32.AvlTable Odin32.AvlSearch Odin32.FreeSize
open Odin32.Tiling Odin32.Word

variable {cbHdr least first last : ℕ}
variable {a a' : BlockTrees} {F F' U U' L : List Memblock} {b c : Memblock}

theorem sum_cons (b : Memblock) (bs : List Memblock) :
    ((b :: bs).map Memblock.cbSize).sum = b.cbSize + (bs.map Memblock.cbSize).sum := rfl

theorem add32_counted {x y z : ℕ} (small : x + y + z < 0x100000000) :
    add32 (add32 x y) z = x + y + z := by
  have first : add32 x y = x + y := add32_of_lt (by omega)
  rw [first, add32_of_lt small]

theorem Holds.sums (holds : Holds cbHdr least first last a F U L) :
    (L.map Memblock.cbSize).sum + ((F.map Memblock.cbSize).sum + (U.map Memblock.cbSize).sum) <
      0x100000000 := by
  have all := holds.laid.sum_lt
  rwa [List.map_append, List.map_append, List.sum_append, List.sum_append] at all

theorem insertUsed_spec (holds : Holds cbHdr least first last a F U (b :: L))
    (done : insertUsed b a = some a') :
    Holds cbHdr least first last a' F (b :: U) L ∧ a'.pcoreFree = a.pcoreFree := by
  unfold insertUsed at done
  simp only [Option.bind_eq_bind, Option.bind_eq_some_iff, Option.some.injEq, Prod.exists] at done
  obtain ⟨t, rc, inserted, rfl⟩ := done
  have sums := holds.sums
  rw [sum_cons] at sums
  have fresh : ∀ c ∈ U, c.uData ≠ b.uData := fun c there =>
    holds.laid.tiles.start_ne (List.mem_append_right _ (List.mem_append_right _ there))
  refine ⟨⟨holds.free, holds.used.insert fresh inserted, holds.freeSum, ?_, ?_, holds.apart⟩, rfl⟩
  · show add32 a.cbUsed b.cbSize = _
    rw [holds.usedSum, add32_of_lt (by omega), sum_cons, Nat.add_comm]
  · refine holds.laid.perm (List.Perm.trans ?_ (List.perm_middle.symm.append_left L))
    exact List.perm_middle.symm

theorem removeUsed_spec (holds : Holds cbHdr least first last a F U L) {uData : ℕ}
    {gone : Option Memblock} (done : removeUsed uData a = some (a', gone)) :
    (gone = none ∧ Holds cbHdr least first last a' F U L ∧ a'.pcoreFree = a.pcoreFree ∧
      ∀ c ∈ U, c.uData ≠ uData) ∨
    ∃ b U', gone = some b ∧ b.uData = uData ∧ U.Perm (b :: U') ∧
      Holds cbHdr least first last a' F U' (b :: L) ∧ a'.pcoreFree = a.pcoreFree := by
  unfold removeUsed at done
  simp only [Option.bind_eq_bind, Option.bind_eq_some_iff, Prod.exists] at done
  obtain ⟨t, found, removed, done⟩ := done
  rcases remove_cases holds.used.avl removed with ⟨rfl, rfl, missing⟩ | ⟨b, rfl, there⟩
  · obtain ⟨rfl, rfl⟩ := Prod.mk.inj (Option.some.inj done)
    refine Or.inl ⟨rfl, ⟨holds.free, holds.used, holds.freeSum, holds.usedSum, holds.laid,
      holds.apart⟩, rfl, fun c member same => missing ?_⟩
    exact holds.used.mem_keys.2 ⟨c, member, same⟩
  · obtain ⟨rfl, rfl⟩ := Prod.mk.inj (Option.some.inj done)
    obtain ⟨member, start⟩ := holds.used.mem.1 there
    obtain rfl : uData = b.uData := start
    obtain ⟨U', cut⟩ := exists_cons member
    have holds' := holds.perm (List.Perm.refl _) cut (List.Perm.refl _)
    obtain ⟨-, used⟩ := holds'.used.remove removed
    have sums := holds'.sums
    rw [sum_cons] at sums
    refine Or.inr ⟨b, U', rfl, rfl, cut, ⟨holds.free, used, holds.freeSum, ?_, holds'.laid_used,
      holds.apart⟩, rfl⟩
    show sub32 a.cbUsed b.cbSize = _
    have whole := holds'.usedSum
    rw [sum_cons] at whole
    rw [whole, sub32_of_le (Nat.le_add_right _ _) (by omega), Nat.add_sub_cancel_left]

/-! ## Freeing -/

section Merge

variable {bs : List Memblock} {d : Memblock}

theorem grown_size (meet : endOf cbHdr c = d.uData) (word : endOf cbHdr d < 0x100000000) :
    (grown cbHdr c d).cbSize = c.cbSize + cbHdr + d.cbSize := by
  unfold endOf at meet word
  exact Nat.mod_eq_of_lt (by omega)

theorem endOf_grown (meet : endOf cbHdr c = d.uData) (word : endOf cbHdr d < 0x100000000) :
    endOf cbHdr (grown cbHdr c d) = endOf cbHdr d := by
  have size := grown_size meet word
  have start : (grown cbHdr c d).uData = c.uData := rfl
  unfold endOf at meet ⊢
  omega

theorem Laid.grow (laid : Laid cbHdr least first last (c :: d :: bs))
    (meet : endOf cbHdr c = d.uData) :
    Laid cbHdr least first last (grown cbHdr c d :: bs) := by
  have word := laid.end_word (List.mem_cons_of_mem _ List.mem_cons_self)
  have size := grown_size meet word
  have large := laid.large c List.mem_cons_self
  exact laid.join rfl meet (endOf_grown meet word).symm (Or.inl rfl) (by omega)

theorem apart_cons (apart : ∀ c ∈ F, ∀ d ∈ F, endOf cbHdr c ≠ d.uData)
    (right : ∀ c ∈ F, endOf cbHdr b ≠ c.uData) (left : ∀ c ∈ F, endOf cbHdr c ≠ b.uData)
    (proper : b.uData < endOf cbHdr b) :
    ∀ c ∈ b :: F, ∀ d ∈ b :: F, endOf cbHdr c ≠ d.uData := by
  intro c hc d hd
  rcases List.mem_cons.1 hc with rfl | inC <;> rcases List.mem_cons.1 hd with rfl | inD
  · exact Nat.ne_of_gt proper
  · exact right d inD
  · exact left c inC
  · exact apart c inC d inD

end Merge

theorem Holds.distinct_free (holds : Holds cbHdr least first last a F U L) :
    (F.map Memblock.pmb).Nodup := by
  have all := holds.laid.distinct
  rw [List.map_append, List.map_append] at all
  exact (List.nodup_append.1 (List.nodup_append.1 all).2.1).1

theorem Holds.change (holds : Holds cbHdr least first last a F U L) {L' : List Memblock}
    (free : InTrees a'.pcoreFree a'.pcoreFreeSize F') (sameUsed : a'.pcoreUsed = a.pcoreUsed)
    (sameSum : a'.cbUsed = a.cbUsed)
    (laid : Laid cbHdr least first last (L' ++ (F' ++ U)))
    (freeSum : (F'.map Memblock.cbSize).sum < 0x100000000 →
      a'.cbFree = (F'.map Memblock.cbSize).sum)
    (apart : ∀ b ∈ F', ∀ c ∈ F', endOf cbHdr b ≠ c.uData) :
    Holds cbHdr least first last a' F' U L' where
  free := free
  used := by
    rw [sameUsed]
    exact holds.used
  freeSum := by
    have all := laid.sum_lt
    rw [List.map_append, List.map_append, List.sum_append, List.sum_append] at all
    exact freeSum (by omega)
  usedSum := sameSum.trans holds.usedSum
  laid := laid
  apart := apart

theorem insertFree_apart (holds : Holds cbHdr least first last a F U (b :: L))
    (left : leftOf cbHdr b a = none) (right : rightOf cbHdr b a = none)
    {released : List Memblock} (done : insertFree cbHdr b a = some (a', released)) :
    Holds cbHdr least first last a' (b :: F) U L ∧ a'.pcoreUsed = a.pcoreUsed ∧ released = [] := by
  unfold insertFree at done
  rw [left, right] at done
  simp only [Option.bind_eq_bind, Option.bind_eq_some_iff, Option.some.injEq, Prod.exists,
    Prod.mk.injEq] at done
  obtain ⟨t, rc, byAddr, s, bySize, rfl, rfl⟩ := done
  have fresh : ∀ c ∈ F, c.uData ≠ b.uData := fun c there =>
    holds.laid.tiles.start_ne (List.mem_append_right _ (List.mem_append_left _ there))
  have trees := holds.free.insert fresh byAddr bySize
  have laid : Laid cbHdr least first last (L ++ ((b :: F) ++ U)) :=
    holds.laid.perm List.perm_middle.symm
  refine ⟨holds.change trees rfl rfl laid (fun small => ?_) (apart_cons holds.apart
    (rightOf_none holds right) (leftOf_none holds left)
    (holds.laid.tiles.proper b List.mem_cons_self)), rfl, rfl⟩
  rw [sum_cons] at small ⊢
  show add32 a.cbFree b.cbSize = _
  rw [holds.freeSum, add32_of_lt (by omega), Nat.add_comm]

theorem insertFree_left (holds : Holds cbHdr least first last a (c :: F) U (b :: L))
    (left : leftOf cbHdr b a = some c) (right : rightOf cbHdr b a = none)
    {released : List Memblock} (done : insertFree cbHdr b a = some (a', released)) :
    Holds cbHdr least first last a' (grown cbHdr c b :: F) U L ∧ a'.pcoreUsed = a.pcoreUsed ∧
      released = [b] := by
  unfold insertFree at done
  rw [left, right] at done
  simp only [Option.bind_eq_bind, Option.bind_eq_some_iff, Option.some.injEq,
    Prod.mk.injEq] at done
  obtain ⟨merged, changed, rfl, rfl⟩ := done
  have meet := (leftOf_some holds left).2
  have rightNone := rightOf_none holds right
  have laid : Laid cbHdr least first last (c :: b :: (L ++ (F ++ U))) := holds.laid_free
  have word := laid.end_word (List.mem_cons_of_mem _ List.mem_cons_self)
  have proper := laid.tiles.proper b (List.mem_cons_of_mem _ List.mem_cons_self)
  obtain ⟨trees, freeSame, usedSame, usedSum⟩ :=
    @changeFree_spec { a with cbFree := add32 a.cbFree b.cbSize } merged F c (grown cbHdr c b) holds.free holds.distinct_free
      (fun _ _ less => less) (fun _ _ less => less) changed
  have laid' := (laid.grow meet).perm List.perm_middle.symm
  refine ⟨holds.change trees usedSame usedSum laid' (fun small => ?_) (apart_cons
    (fun d hd e he => holds.apart d (List.mem_cons_of_mem _ hd) e (List.mem_cons_of_mem _ he))
    (fun d there => ?_) (fun d there => ?_) ?_), usedSame, rfl⟩
  · have whole := holds.freeSum
    rw [sum_cons] at small whole ⊢
    rw [grown_size meet word] at small ⊢
    show add32 merged.cbFree cbHdr = _
    have counted : merged.cbFree = add32 a.cbFree b.cbSize := freeSame
    rw [counted, whole, add32_counted (by omega)]
    omega
  · rw [endOf_grown meet word]
    exact rightNone d (List.mem_cons_of_mem _ there)
  · exact holds.apart d (List.mem_cons_of_mem _ there) c List.mem_cons_self
  · rw [endOf_grown meet word]
    have := laid.tiles.proper c List.mem_cons_self
    show c.uData < _
    omega

theorem insertFree_right (holds : Holds cbHdr least first last a (c :: F) U (b :: L))
    (left : leftOf cbHdr b a = none) (right : rightOf cbHdr b a = some c)
    {released : List Memblock} (done : insertFree cbHdr b a = some (a', released)) :
    Holds cbHdr least first last a' (grown cbHdr b c :: F) U L ∧ a'.pcoreUsed = a.pcoreUsed ∧
      released = [c] := by
  unfold insertFree at done
  rw [left, right] at done
  simp only [Option.bind_eq_bind, Option.bind_eq_some_iff, Option.some.injEq,
    Prod.mk.injEq] at done
  obtain ⟨merged, changed, rfl, rfl⟩ := done
  have meet := (rightOf_some holds right).2
  have leftNone := leftOf_none holds left
  have laid : Laid cbHdr least first last (b :: c :: (L ++ (F ++ U))) :=
    holds.laid_free.perm (List.Perm.swap _ _ _)
  have word := laid.end_word (List.mem_cons_of_mem _ List.mem_cons_self)
  have properB := laid.tiles.proper b List.mem_cons_self
  have properC := laid.tiles.proper c (List.mem_cons_of_mem _ List.mem_cons_self)
  -- what starts left of `c` ends left of `b`
  have below : ∀ d ∈ F, d.uData < c.uData → d.uData < b.uData := by
    intro d there less
    have inside : d ∈ c :: (L ++ (F ++ U)) :=
      List.mem_cons_of_mem _ (List.mem_append_right _ (List.mem_append_left _ there))
    have apart := laid.tiles.apart_of_mem inside
    have proper := laid.tiles.proper d (List.mem_cons_of_mem _ inside)
    unfold Apart at apart
    omega
  obtain ⟨trees, freeSame, usedSame, usedSum⟩ :=
    @changeFree_spec { a with cbFree := add32 a.cbFree b.cbSize } merged F c (grown cbHdr b c) holds.free holds.distinct_free
      below (fun d there less => Nat.lt_trans (meet ▸ properB) less) changed
  have laid' := (laid.grow meet).perm List.perm_middle.symm
  refine ⟨holds.change trees usedSame usedSum laid' (fun small => ?_) (apart_cons
    (fun d hd e he => holds.apart d (List.mem_cons_of_mem _ hd) e (List.mem_cons_of_mem _ he))
    (fun d there => ?_) (fun d there => ?_) ?_), usedSame, rfl⟩
  · have whole := holds.freeSum
    rw [sum_cons] at small whole ⊢
    rw [grown_size meet word] at small ⊢
    show add32 merged.cbFree cbHdr = _
    have counted : merged.cbFree = add32 a.cbFree b.cbSize := freeSame
    rw [counted, whole, add32_counted (by omega)]
    omega
  · rw [endOf_grown meet word]
    exact holds.apart c List.mem_cons_self d (List.mem_cons_of_mem _ there)
  · exact leftNone d (List.mem_cons_of_mem _ there)
  · rw [endOf_grown meet word]
    show b.uData < _
    omega

theorem insertFree_both {d : Memblock}
    (holds : Holds cbHdr least first last a (c :: d :: F) U (b :: L))
    (left : leftOf cbHdr b a = some c) (right : rightOf cbHdr b a = some d)
    {released : List Memblock} (done : insertFree cbHdr b a = some (a', released)) :
    Holds cbHdr least first last a' (grown cbHdr (grown cbHdr c b) d :: F) U L ∧
      a'.pcoreUsed = a.pcoreUsed ∧ released = [b, d] := by
  have meetC := (leftOf_some holds left).2
  have meetD := (rightOf_some holds right).2
  -- the left block, the block and the right block, in a row
  have laid : Laid cbHdr least first last (c :: b :: d :: (L ++ (F ++ U))) :=
    holds.laid_free.perm ((List.perm_middle.cons b).cons c)
  have wordB := laid.end_word (List.mem_cons_of_mem _ List.mem_cons_self)
  have wordD := laid.end_word
    (List.mem_cons_of_mem _ (List.mem_cons_of_mem _ List.mem_cons_self))
  have grownC : endOf cbHdr (grown cbHdr c b) = d.uData := (endOf_grown meetC wordB).trans meetD
  have properC := laid.tiles.proper c List.mem_cons_self
  have properB := laid.tiles.proper b (List.mem_cons_of_mem _ List.mem_cons_self)
  have properD := laid.tiles.proper d
    (List.mem_cons_of_mem _ (List.mem_cons_of_mem _ List.mem_cons_self))
  have laid' := ((laid.grow meetC).grow grownC).perm List.perm_middle.symm
  have swapped := holds.perm (List.Perm.swap d c F) (List.Perm.refl _) (List.Perm.refl _)
  unfold insertFree at done
  rw [left, right] at done
  simp only [Option.bind_eq_bind, Option.bind_eq_some_iff, Prod.exists] at done
  obtain ⟨t, gone, byAddr, done⟩ := done
  obtain ⟨rfl, indexed⟩ := swapped.free.byAddr.remove byAddr
  have known : ((some (d.uData, d)).map fun e : ℕ × Memblock => e.2.pmb) = some d.pmb := rfl
  rw [if_neg (not_not_intro known)] at done
  simp only [Option.bind_eq_some_iff, Option.some.injEq, Prod.mk.injEq] at done
  obtain ⟨s₁, removeC, s₂, removeD, s₃, inserted, rfl, rfl⟩ := done
  obtain ⟨ok₁, sized₁⟩ := holds.free.removeSize holds.distinct_free removeC
  have distinctD : ((d :: F).map Memblock.pmb).Nodup :=
    (List.nodup_cons.1 holds.distinct_free).2
  obtain ⟨ok₂, same₂⟩ := remove_spec ok₁ ((sized₁.map _).nodup_iff.2 distinctD)
    (sized₁.mem_iff.2 List.mem_cons_self) removeD
  have sized₂ := (same₂.symm.trans sized₁).cons_inv
  obtain ⟨ok₃, sized₃⟩ := insert_spec ok₂ inserted
  have trees : InTrees (avlReplace c.uData c.uData (grown cbHdr (grown cbHdr c b) d) t) s₃
      (grown cbHdr (grown cbHdr c b) d :: F) :=
    ⟨indexed.replace_same rfl, ok₃, sized₃.trans (sized₂.cons _)⟩
  have size : (grown cbHdr (grown cbHdr c b) d).cbSize =
      c.cbSize + cbHdr + b.cbSize + cbHdr + d.cbSize := by
    rw [grown_size grownC wordD, grown_size meetC wordB]
  refine ⟨holds.change trees rfl rfl laid' (fun small => ?_) (apart_cons (fun e he f hf => ?_)
    (fun e there => ?_) (fun e there => ?_) ?_), rfl, rfl⟩
  · have whole := holds.freeSum
    rw [sum_cons, sum_cons] at whole
    rw [sum_cons, size] at small ⊢
    show add32 (add32 a.cbFree b.cbSize) (2 * cbHdr) = _
    rw [whole, add32_counted (by omega)]
    omega
  · exact holds.apart e (List.mem_cons_of_mem _ (List.mem_cons_of_mem _ he)) f
      (List.mem_cons_of_mem _ (List.mem_cons_of_mem _ hf))
  · rw [endOf_grown grownC wordD]
    exact holds.apart d (List.mem_cons_of_mem _ List.mem_cons_self) e
      (List.mem_cons_of_mem _ (List.mem_cons_of_mem _ there))
  · exact holds.apart e (List.mem_cons_of_mem _ (List.mem_cons_of_mem _ there)) c
      List.mem_cons_self
  · rw [endOf_grown grownC wordD]
    show c.uData < _
    omega

/-- A block on its way becomes a free block or a part of one; the descriptors that are no longer
needed are released. A free block keeps the descriptor of the one it starts with. -/
theorem insertFree_spec (holds : Holds cbHdr least first last a F U (b :: L))
    {released : List Memblock} (done : insertFree cbHdr b a = some (a', released)) :
    ∃ F', Holds cbHdr least first last a' F' U L ∧ a'.pcoreUsed = a.pcoreUsed ∧
      ((released ++ F').map Memblock.pmb).Perm ((b :: F).map Memblock.pmb) ∧
      ∀ x ∈ F', ∃ d ∈ b :: F, d.pmb = x.pmb ∧ d.uData = x.uData := by
  cases left : leftOf cbHdr b a with
  | none =>
    cases right : rightOf cbHdr b a with
    | none =>
      obtain ⟨holds', used, rfl⟩ := insertFree_apart holds left right done
      exact ⟨b :: F, holds', used, List.Perm.refl _, fun x there => ⟨x, there, rfl, rfl⟩⟩
    | some d =>
      obtain ⟨rest, cut⟩ := exists_cons (rightOf_some holds right).1
      have holds := holds.perm cut (List.Perm.refl _) (List.Perm.refl _)
      obtain ⟨holds', used, rfl⟩ := insertFree_right holds left right done
      refine ⟨_, holds', used, List.Perm.trans ?_ ((cut.map Memblock.pmb).symm.cons b.pmb),
        fun x there => ?_⟩
      · exact List.Perm.swap _ _ _
      · rcases List.mem_cons.1 there with rfl | there
        · exact ⟨b, List.mem_cons_self, rfl, rfl⟩
        · exact ⟨x, List.mem_cons_of_mem _ (cut.mem_iff.2 (List.mem_cons_of_mem _ there)), rfl, rfl⟩
  | some c =>
    obtain ⟨thereC, meetC⟩ := leftOf_some holds left
    obtain ⟨rest, cut⟩ := exists_cons thereC
    have holdsC := holds.perm cut (List.Perm.refl _) (List.Perm.refl _)
    cases right : rightOf cbHdr b a with
    | none =>
      obtain ⟨holds', used, rfl⟩ := insertFree_left holdsC left right done
      refine ⟨_, holds', used, (cut.map Memblock.pmb).symm.cons b.pmb, fun x there => ?_⟩
      rcases List.mem_cons.1 there with rfl | there
      · exact ⟨c, List.mem_cons_of_mem _ thereC, rfl, rfl⟩
      · exact ⟨x, List.mem_cons_of_mem _ (cut.mem_iff.2 (List.mem_cons_of_mem _ there)), rfl, rfl⟩
    | some d =>
      obtain ⟨thereD, meetD⟩ := rightOf_some holds right
      have other : d ≠ c := by
        rintro rfl
        have properB := holds.laid.tiles.proper b List.mem_cons_self
        have properD := holds.laid.tiles.proper d (holds.mem_free thereD)
        omega
      have behind := (List.mem_cons.1 (cut.mem_iff.1 thereD)).resolve_left other
      obtain ⟨rest', cut'⟩ := exists_cons behind
      have cut := cut.trans (cut'.cons c)
      have holds := holds.perm cut (List.Perm.refl _) (List.Perm.refl _)
      obtain ⟨holds', used, rfl⟩ := insertFree_both holds left right done
      refine ⟨_, holds', used, List.Perm.trans ?_ ((cut.map Memblock.pmb).symm.cons b.pmb),
        fun x there => ?_⟩
      · exact (List.Perm.swap _ _ _).cons _
      · rcases List.mem_cons.1 there with rfl | there
        · exact ⟨c, List.mem_cons_of_mem _ thereC, rfl, rfl⟩
        · exact ⟨x, List.mem_cons_of_mem _ (cut.mem_iff.2
            (List.mem_cons_of_mem _ (List.mem_cons_of_mem _ there))), rfl, rfl⟩

end Odin32.HeapBlocks
