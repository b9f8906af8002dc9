import Odin32.HeapBlocksOps

/-! # Blocks cut, taken and resized

The operations that take from the free blocks of an anchor, and those that change the size of a
block in use where it stands. -/

set_option autoImplicit false

namespace Odin32.HeapBlocks
open Odin32.RankedTree Odin32.Avl Odin32.AvlOps Odin32.AvlTable Odin32.AvlSearch Odin32.FreeSize
open Odin32.Tiling Odin32.Word

variable {cbHdr least first last : ℕ}
variable {a a' : BlockTrees} {F F' U U' L : List Memblock} {b c : Memblock}

/-! ## Taking from the free blocks -/

theorem bestFit_some (holds : Holds cbHdr least first last a F U L) {cbUserSize : ℕ}
    (found : bestFit cbUserSize a = some b) : b ∈ F ∧ cbUserSize ≤ b.cbSize := by
  obtain ⟨e, fit, rfl⟩ := Option.map_eq_some_iff.1 found
  have spec := getBestFit_spec cbUserSize true holds.free.bySize.avl.ordered
  rw [fit] at spec
  obtain ⟨there, fits, -⟩ := spec
  have size := holds.free.bySize.keyed e there e.2.1 List.mem_cons_self
  have above : cbUserSize ≤ e.1 := fits
  refine ⟨holds.free.sized.mem_iff.1 (mem_sizeBlocks.2 ⟨e, there, List.mem_cons_self⟩), ?_⟩
  rw [size]
  exact above

/-- One of the free blocks is large enough. -/
def Fits (cb : ℕ) (F : List Memblock) : Prop := ∃ b ∈ F, cb ≤ b.cbSize

instance (cb : ℕ) (F : List Memblock) : Decidable (Fits cb F) :=
  inferInstanceAs (Decidable (∃ b ∈ F, cb ≤ b.cbSize))

theorem bestFit_none (holds : Holds cbHdr least first last a F U L) {cb : ℕ}
    (none_ : bestFit cb a = none) : ¬Fits cb F := by
  rintro ⟨b, there, large⟩
  have spec := getBestFit_spec cb true holds.free.bySize.avl.ordered
  rw [Option.map_eq_none_iff.1 none_] at spec
  obtain ⟨e, member, inside⟩ := mem_sizeBlocks.1 (holds.free.sized.mem_iff.2 there)
  have size := holds.free.bySize.keyed e member b inside
  exact spec e member (size ▸ large : cb ≤ e.1)

theorem fits_le_free (holds : Holds cbHdr least first last a F U L) {cb : ℕ} (fits : Fits cb F) :
    cb ≤ a.cbFree := by
  obtain ⟨b, there, large⟩ := fits
  obtain ⟨rest, cut⟩ := exists_cons there
  have sum : a.cbFree = b.cbSize + (rest.map Memblock.cbSize).sum := by
    rw [holds.freeSum, (cut.map Memblock.cbSize).sum_nat, sum_cons]
  omega

theorem carve_spec (holds : Holds cbHdr least first last a (c :: F) U L) {cbUserSize node : ℕ}
    (pos : 0 < least) (user : least ≤ cbUserSize)
    (room : least + (cbHdr + cbUserSize) ≤ c.cbSize)
    (fresh : ∀ d ∈ c :: (L ++ (F ++ U)), d.pmb ≠ node)
    (done : carve cbHdr cbUserSize c a = some a') :
    Holds cbHdr least first last a'
      (resized (c.cbSize - (cbHdr + cbUserSize)) c :: F) U
      (carved cbUserSize node c :: L) ∧ a'.pcoreUsed = a.pcoreUsed := by
  have laid := holds.laid_free
  have word := laid.end_word List.mem_cons_self
  have ending : endOf cbHdr c = c.uData + cbHdr + c.cbSize := rfl
  have cut32 : sub32 c.cbSize (u32 (cbHdr + cbUserSize)) = c.cbSize - (cbHdr + cbUserSize) := by
    have small : u32 (cbHdr + cbUserSize) = cbHdr + cbUserSize := Nat.mod_eq_of_lt (by omega)
    rw [small]
    exact sub32_of_le (by omega) (by omega)
  have start : (carved cbUserSize node c).uData = c.uData + c.cbSize - cbUserSize := by
    have sum : add32 c.uData c.cbSize = c.uData + c.cbSize := add32_of_lt (by omega)
    show sub32 (add32 c.uData c.cbSize) cbUserSize = _
    rw [sum]
    exact sub32_of_le (by omega) (by omega)
  have stop : endOf cbHdr (carved cbUserSize node c) = endOf cbHdr c := by
    have size : (carved cbUserSize node c).cbSize = cbUserSize := rfl
    unfold endOf
    omega
  unfold carve at done
  simp only [Option.bind_eq_bind, Option.bind_eq_some_iff, Option.some.injEq, cut32] at done
  obtain ⟨less, changed, rfl⟩ := done
  obtain ⟨trees, freeSame, usedSame, usedSum⟩ := @changeFree_spec a less F c
    (resized (c.cbSize - (cbHdr + cbUserSize)) c) holds.free holds.distinct_free
    (fun _ _ small => small) (fun _ _ small => small) changed
  have meet : endOf cbHdr (resized (c.cbSize - (cbHdr + cbUserSize)) c) =
      (carved cbUserSize node c).uData := by
    rw [start]
    show c.uData + cbHdr + (c.cbSize - (cbHdr + cbUserSize)) = _
    omega
  have distinct : ((resized (c.cbSize - (cbHdr + cbUserSize)) c ::
      carved cbUserSize node c :: (L ++ (F ++ U))).map Memblock.pmb).Nodup := by
    refine ((List.Perm.swap _ _ _).nodup_iff.1
      (List.nodup_cons.2 ⟨fun there => ?_, laid.distinct⟩))
    have there : node ∈ (c :: (L ++ (F ++ U))).map Memblock.pmb := there
    obtain ⟨d, member, same⟩ := List.mem_map.1 there
    exact fresh d member same
  have parts := @Laid.cut _ _ _ _ _ c (resized (c.cbSize - (cbHdr + cbUserSize)) c)
    (carved cbUserSize node c) laid rfl meet stop
    (by show c.uData < c.uData + cbHdr + (c.cbSize - (cbHdr + cbUserSize)); omega)
    (by rw [stop, start]; omega) distinct
    (by show least ≤ c.cbSize - (cbHdr + cbUserSize); omega) user
  have properC := laid.tiles.proper c List.mem_cons_self
  refine ⟨holds.change trees usedSame usedSum (parts.perm ?_) (fun small => ?_) (apart_cons
    (fun d hd e he => holds.apart d (List.mem_cons_of_mem _ hd) e (List.mem_cons_of_mem _ he))
    (fun d there => ?_) (fun d there => holds.apart d (List.mem_cons_of_mem _ there) c
      List.mem_cons_self) (parts.tiles.proper _ List.mem_cons_self)), usedSame⟩
  · exact (List.Perm.swap _ _ _).trans (List.perm_middle.symm.cons _)
  · have whole := holds.freeSum
    rw [sum_cons] at small whole ⊢
    have sums := holds.sums
    rw [sum_cons] at sums
    have left : sub32 less.cbFree c.cbSize = (F.map Memblock.cbSize).sum := by
      rw [freeSame, whole, sub32_of_le (Nat.le_add_right _ _) (by omega), Nat.add_sub_cancel_left]
    show add32 (sub32 less.cbFree c.cbSize) (resized _ c).cbSize = _
    rw [left, add32_of_lt (Nat.add_comm _ _ ▸ small)]
    exact Nat.add_comm _ _
  · rw [meet]
    exact (parts.tiles.perm (List.Perm.swap _ _ _)).start_ne (List.mem_cons_of_mem _
      (List.mem_append_right _ (List.mem_append_left _ there))) |>.symm

theorem takeWhole_spec (holds : Holds cbHdr least first last a (c :: F) U L) {found : Bool}
    (done : takeWhole c a = some (a', found)) :
    found = true ∧ Holds cbHdr least first last a' F U (c :: L) ∧ a'.pcoreUsed = a.pcoreUsed := by
  unfold takeWhole at done
  simp only [Option.bind_eq_bind, Option.bind_eq_some_iff, Option.some.injEq, Prod.exists,
    Prod.mk.injEq] at done
  obtain ⟨s, bySize, t, gone, byAddr, rfl, rfl⟩ := done
  obtain ⟨rfl, trees⟩ := holds.free.remove holds.distinct_free byAddr bySize
  refine ⟨decide_eq_true rfl, holds.change trees rfl rfl (holds.laid.perm ?_) (fun small => ?_)
    (fun d hd e he => holds.apart d (List.mem_cons_of_mem _ hd) e (List.mem_cons_of_mem _ he)),
    rfl⟩
  · exact List.perm_middle
  · have whole := holds.freeSum
    have sums := holds.sums
    rw [sum_cons] at whole sums
    show sub32 a.cbFree c.cbSize = _
    rw [whole, sub32_of_le (Nat.le_add_right _ _) (by omega), Nat.add_sub_cancel_left]

theorem putBack_spec (holds : Holds cbHdr least first last a (c :: F) U L)
    (done : putBack c a = some a') :
    Holds cbHdr least first last a' (c :: F) U L ∧ a'.pcoreFree = a.pcoreFree ∧
      a'.pcoreUsed = a.pcoreUsed ∧ a'.cbFree = a.cbFree ∧ a'.cbUsed = a.cbUsed := by
  unfold putBack at done
  simp only [Option.bind_eq_bind, Option.bind_eq_some_iff, Option.some.injEq] at done
  obtain ⟨s, removed, s', inserted, rfl⟩ := done
  obtain ⟨ok, sized⟩ := holds.free.removeSize holds.distinct_free removed
  obtain ⟨ok', sized'⟩ := insert_spec ok inserted
  have sums := holds.sums
  have whole := holds.freeSum
  have sum : add32 (sub32 a.cbFree c.cbSize) c.cbSize = a.cbFree := by
    rw [sum_cons] at sums whole
    rw [whole, sub32_of_le (Nat.le_add_right _ _) (by omega), Nat.add_sub_cancel_left,
      Nat.add_comm]
    exact add32_of_lt (by omega)
  refine ⟨holds.change ⟨holds.free.byAddr, ok', sized'.trans (sized.cons c)⟩ rfl rfl holds.laid
    (fun _ => ?_) holds.apart, rfl, rfl, sum, rfl⟩
  exact sum.trans whole

/-! ## Blocks in use that change their size -/

section Resize

variable {cbNew node : ℕ}

theorem tailOf_parts (holds : Holds cbHdr least first last a F (b :: U) L)
    (room : cbNew + cbHdr ≤ b.cbSize) :
    (tailOf cbHdr cbNew node b).uData = endOf cbHdr (resized cbNew b) ∧
      (tailOf cbHdr cbNew node b).cbSize = b.cbSize - cbNew - cbHdr := by
  have word := holds.laid_used.end_word List.mem_cons_self
  have ending : endOf cbHdr b = b.uData + cbHdr + b.cbSize := rfl
  constructor
  · exact Nat.mod_eq_of_lt (by omega)
  · have less : sub32 b.cbSize cbNew = b.cbSize - cbNew := sub32_of_le (by omega) (by omega)
    show sub32 (sub32 b.cbSize cbNew) cbHdr = _
    rw [less]
    exact sub32_of_le (by omega) (by omega)

theorem trim_spec (holds : Holds cbHdr least first last a F (b :: U) L) (pos : 0 < least)
    (keep : least ≤ cbNew) (room : cbNew + cbHdr + least ≤ b.cbSize)
    (fresh : ∀ d ∈ b :: (L ++ (F ++ U)), d.pmb ≠ node) :
    Holds cbHdr least first last (trim cbNew b a) F (resized cbNew b :: U)
      (tailOf cbHdr cbNew node b :: L) := by
  have laid := holds.laid_used
  have word := laid.end_word List.mem_cons_self
  have ending : endOf cbHdr b = b.uData + cbHdr + b.cbSize := rfl
  have kept : endOf cbHdr (resized cbNew b) = b.uData + cbHdr + cbNew := rfl
  obtain ⟨start, size⟩ := @tailOf_parts _ _ _ _ a F U L b cbNew node holds (by omega)
  have stop : endOf cbHdr (tailOf cbHdr cbNew node b) = endOf cbHdr b := by
    have unfolded : endOf cbHdr (tailOf cbHdr cbNew node b) = (tailOf cbHdr cbNew node b).uData +
      cbHdr + (tailOf cbHdr cbNew node b).cbSize := rfl
    omega
  have distinct : ((resized cbNew b :: tailOf cbHdr cbNew node b ::
      (L ++ (F ++ U))).map Memblock.pmb).Nodup := by
    refine ((List.Perm.swap _ _ _).nodup_iff.1
      (List.nodup_cons.2 ⟨fun there => ?_, laid.distinct⟩))
    have there : node ∈ (b :: (L ++ (F ++ U))).map Memblock.pmb := there
    obtain ⟨d, member, same⟩ := List.mem_map.1 there
    exact fresh d member same
  have parts := @Laid.cut _ _ _ _ _ b (resized cbNew b) (tailOf cbHdr cbNew node b) laid rfl
    start.symm stop (by show b.uData < _; omega) (by omega) distinct keep (by omega)
  have sums := holds.sums
  have whole := holds.usedSum
  rw [sum_cons] at sums whole
  refine ⟨holds.free, holds.used.replace_same rfl, holds.freeSum, ?_, parts.perm ?_, holds.apart⟩
  · have less : sub32 b.cbSize cbNew = b.cbSize - cbNew := sub32_of_le (by omega) (by omega)
    show sub32 a.cbUsed (sub32 b.cbSize cbNew) = cbNew + (U.map Memblock.cbSize).sum
    rw [less, whole, sub32_of_le (by omega) (by omega)]
    omega
  · refine (List.Perm.swap _ _ _).trans (List.Perm.cons _ ?_)
    exact List.perm_middle.symm.trans (List.perm_middle.symm.append_left L)

theorem Holds.laid_both (holds : Holds cbHdr least first last a (c :: F) (b :: U) L) :
    Laid cbHdr least first last (b :: c :: (L ++ (F ++ U))) := by
  refine holds.laid.perm (List.perm_middle.trans ?_)
  exact (((List.perm_middle.append_left L).trans List.perm_middle).cons c).trans
    (List.Perm.swap _ _ _)

theorem growInto_spec (holds : Holds cbHdr least first last a (c :: F) (b :: U) L)
    (meet : endOf cbHdr b = c.uData) (pos : 0 < least) (more : b.cbSize ≤ cbNew)
    (room : cbNew + least ≤ c.cbSize + b.cbSize)
    (fresh : ∀ d ∈ b :: (L ++ (F ++ U)), d.pmb ≠ node)
    (done : growInto cbHdr cbNew node b c a = some a') :
    Holds cbHdr least first last a' (pushed cbHdr cbNew node b c :: F) (resized cbNew b :: U)
      L := by
  have laid := holds.laid_both
  have word := laid.end_word (List.mem_cons_of_mem _ List.mem_cons_self)
  have large := laid.large b List.mem_cons_self
  have endB : endOf cbHdr b = b.uData + cbHdr + b.cbSize := rfl
  have endC : endOf cbHdr c = c.uData + cbHdr + c.cbSize := rfl
  have kept : endOf cbHdr (resized cbNew b) = b.uData + cbHdr + cbNew := rfl
  have start : (pushed cbHdr cbNew node b c).uData = endOf cbHdr (resized cbNew b) :=
    Nat.mod_eq_of_lt (by omega)
  have size : (pushed cbHdr cbNew node b c).cbSize = c.cbSize + b.cbSize - cbNew := by
    have sum : add32 c.cbSize b.cbSize = c.cbSize + b.cbSize := add32_of_lt (by omega)
    show sub32 (add32 c.cbSize b.cbSize) cbNew = _
    rw [sum]
    exact sub32_of_le (by omega) (by omega)
  have stop : endOf cbHdr (pushed cbHdr cbNew node b c) = endOf cbHdr c := by
    have unfolded : endOf cbHdr (pushed cbHdr cbNew node b c) =
      (pushed cbHdr cbNew node b c).uData + cbHdr + (pushed cbHdr cbNew node b c).cbSize := rfl
    omega
  have distinct : ((resized cbNew b :: pushed cbHdr cbNew node b c ::
      (L ++ (F ++ U))).map Memblock.pmb).Nodup := by
    have all := laid.distinct
    simp only [List.map_cons, List.nodup_cons, List.mem_cons, not_or] at all ⊢
    refine ⟨⟨?_, all.1.2⟩, fun there => ?_, all.2.2⟩
    · exact fresh b List.mem_cons_self
    · obtain ⟨d, member, same⟩ := List.mem_map.1 there
      exact fresh d (List.mem_cons_of_mem _ member) same
  have parts := @Laid.cut _ _ _ _ _ (grown cbHdr b c) (resized cbNew b)
    (pushed cbHdr cbNew node b c) (laid.grow meet) rfl start.symm
    (stop.trans (endOf_grown meet word).symm) (by show b.uData < _; omega) (by omega) distinct
    (by show least ≤ cbNew; omega) (by omega)
  have inside : ∀ d ∈ F, d ∈ L ++ (F ++ U) := fun d there =>
    List.mem_append_right _ (List.mem_append_left _ there)
  have above : ∀ d ∈ F, c.uData < d.uData → (pushed cbHdr cbNew node b c).uData < d.uData := by
    intro d there less
    have apart := (laid.perm (List.Perm.swap _ _ _)).tiles.apart_of_mem
      (List.mem_cons_of_mem _ (inside d there))
    have proper := laid.tiles.proper d
      (List.mem_cons_of_mem _ (List.mem_cons_of_mem _ (inside d there)))
    unfold Apart at apart
    omega
  unfold growInto at done
  simp only [Option.bind_eq_bind, Option.bind_eq_some_iff, Option.some.injEq] at done
  obtain ⟨changed, step, rfl⟩ := done
  obtain ⟨trees, freeSame, usedSame, usedSum⟩ := @changeFree_spec a changed F c
    (pushed cbHdr cbNew node b c) holds.free holds.distinct_free
    (fun d _ less => by omega) above step
  have sums := holds.sums
  have wholeFree := holds.freeSum
  have wholeUsed := holds.usedSum
  rw [sum_cons] at wholeFree wholeUsed
  rw [sum_cons, sum_cons] at sums
  refine ⟨trees, ?_, ?_, ?_, parts.perm ?_, apart_cons
    (fun d hd e he => holds.apart d (List.mem_cons_of_mem _ hd) e (List.mem_cons_of_mem _ he))
    (fun d there => ?_) (fun d there => ?_) (by omega)⟩
  · show Indexed (avlReplace b.uData b.uData (resized cbNew b) changed.pcoreUsed) _
    rw [usedSame]
    exact holds.used.replace_same rfl
  · have left : sub32 changed.cbFree c.cbSize = (F.map Memblock.cbSize).sum := by
      rw [freeSame, wholeFree, sub32_of_le (Nat.le_add_right _ _) (by omega),
        Nat.add_sub_cancel_left]
    show add32 (sub32 changed.cbFree c.cbSize) (pushed cbHdr cbNew node b c).cbSize = _
    rw [left, add32_of_lt (by omega), sum_cons, Nat.add_comm]
  · have less : sub32 cbNew b.cbSize = cbNew - b.cbSize := sub32_of_le more (by omega)
    show add32 changed.cbUsed (sub32 cbNew b.cbSize) = cbNew + (U.map Memblock.cbSize).sum
    rw [less, usedSum, wholeUsed, add32_of_lt (by omega)]
    omega
  · refine (List.Perm.swap _ _ _).trans (List.Perm.trans (List.Perm.cons _ ?_)
      List.perm_middle.symm)
    exact List.perm_middle.symm.trans (List.perm_middle.symm.append_left L)
  · rw [stop]
    exact holds.apart c List.mem_cons_self d (List.mem_cons_of_mem _ there)
  · have apart := parts.tiles.apart_of_mem (List.mem_cons_of_mem _ (inside d there))
    have proper := laid.tiles.proper d
      (List.mem_cons_of_mem _ (List.mem_cons_of_mem _ (inside d there)))
    have front : (resized cbNew b).uData = b.uData := rfl
    unfold Apart at apart
    omega

theorem growOver_spec (holds : Holds cbHdr least first last a (c :: F) (b :: U) L)
    (meet : endOf cbHdr b = c.uData) {found : Bool}
    (done : growOver cbHdr b c a = some (a', found)) :
    found = true ∧ Holds cbHdr least first last a' F (grown cbHdr b c :: U) L := by
  have laid := holds.laid_both
  have word := laid.end_word (List.mem_cons_of_mem _ List.mem_cons_self)
  have merged := laid.grow meet
  have size := grown_size meet word
  unfold growOver at done
  simp only [Option.bind_eq_bind, Option.bind_eq_some_iff, Prod.exists] at done
  obtain ⟨t, gone, byAddr, done⟩ := done
  obtain ⟨rfl, -⟩ := holds.free.byAddr.remove byAddr
  have known : ((some (c.uData, c)).map fun e : ℕ × Memblock => e.2.pmb) = some c.pmb := rfl
  rw [if_neg (not_not_intro known)] at done
  simp only [Option.bind_eq_some_iff, Option.some.injEq, Prod.mk.injEq] at done
  obtain ⟨s, bySize, rfl, rfl⟩ := done
  obtain ⟨-, trees⟩ := holds.free.remove holds.distinct_free byAddr bySize
  have sums := merged.sum_lt
  have old := holds.sums
  have wholeFree := holds.freeSum
  have wholeUsed := holds.usedSum
  rw [sum_cons] at wholeFree wholeUsed
  rw [sum_cons, sum_cons] at old
  rw [sum_cons, size, List.map_append, List.map_append, List.sum_append, List.sum_append] at sums
  refine ⟨rfl, trees, holds.used.replace_same rfl, ?_, ?_, merged.perm ?_,
    fun d hd e he => holds.apart d (List.mem_cons_of_mem _ hd) e (List.mem_cons_of_mem _ he)⟩
  · show sub32 a.cbFree c.cbSize = _
    rw [wholeFree, sub32_of_le (Nat.le_add_right _ _) (by omega), Nat.add_sub_cancel_left]
  · have small : u32 (c.cbSize + cbHdr) = c.cbSize + cbHdr := Nat.mod_eq_of_lt (by omega)
    show add32 a.cbUsed (u32 (c.cbSize + cbHdr)) = _
    rw [small, wholeUsed, sum_cons, size, add32_of_lt (by omega)]
    omega
  · exact List.perm_middle.symm.trans (List.perm_middle.symm.append_left L)

end Resize

end Odin32.HeapBlocks
