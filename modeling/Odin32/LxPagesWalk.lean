import Odin32.LxPages

/-! # What the page walks produce

For spans that are not empty and end within the address space, every walk takes
each object for exactly the pages that hold its span. The rows of the page table
and the pages of the fixup table are then given object by object. -/

set_option autoImplicit false

namespace Odin32.LxPagesWalk
open Odin32.Word Odin32.LxPages

/-- Objects in order of their RVAs, none reaching into the next one or beyond the
address space. -/
def WellPlaced : List LxObject → Prop
  | [] => True
  | o :: rest => o.cbPhysical ≤ o.cbVirtual ∧ o.ulRVA < 0x100000000 ∧ o.cbVirtual < 0x100000000 ∧
      o.ulRVA + o.cbVirtual ≤ (match rest with
        | [] => 0x100000000
        | next :: _ => next.ulRVA) ∧ WellPlaced rest

/-- The last page of the object ends below the top of the address space, or the
object is a single page that reaches exactly up to it. -/
def TopFits (o : LxObject) : Prop :=
  o.ulRVA + 0x1000 * pagesFor o.cbVirtual < 0x100000000 ∨
    (o.ulRVA + o.cbVirtual = 0x100000000 ∧ o.cbVirtual ≤ 0x1000)

/-- No span is empty, and each one is whole pages up to its end. -/
def SpansFit (aio : Bool) : List LxObject → Prop
  | [] => True
  | [o] => 0 < o.cbVirtual ∧ TopFits o
  | o :: next :: rest => (if aio then o.ulRVA < next.ulRVA ∧ (next.ulRVA - o.ulRVA) % 0x1000 = 0
      else 0 < o.cbVirtual ∧ TopFits o) ∧ SpansFit aio (next :: rest)

/-- The pages a walk gives to the first object of the list. -/
def spanPages (aio : Bool) (o : LxObject) (rest : List LxObject) : ℕ :=
  pagesFor (objectSpan aio o rest)

theorem spansFit_tail {aio : Bool} {o : LxObject} {rest : List LxObject}
    (h : SpansFit aio (o :: rest)) : SpansFit aio rest := by
  cases rest with
  | nil => trivial
  | cons next rest => exact h.2

theorem spansFit_span {aio : Bool} {o : LxObject} {rest : List LxObject}
    (hw : WellPlaced (o :: rest)) (h : SpansFit aio (o :: rest)) :
    0 < objectSpan aio o rest ∧ 0x1000 * spanPages aio o rest < 0x100000000 ∧
      o.cbPhysical ≤ objectSpan aio o rest := by
  obtain ⟨hp, hr, hv, he, hw'⟩ := hw
  cases rest with
  | nil =>
    obtain ⟨hpos, htop⟩ := h
    simp only [objectSpan, spanPages]
    refine ⟨hpos, ?_, hp⟩
    rcases htop with htop | ⟨-, hone⟩
    · omega
    · unfold pagesFor; omega
  | cons next rest =>
    have hn : next.ulRVA < 0x100000000 := hw'.2.1
    cases aio with
    | true =>
      obtain ⟨⟨hlt, hmod⟩, -⟩ := h
      simp only [objectSpan, spanPages, if_true, sub32_of_le (Nat.le_of_lt hlt) hn]
      simp only at he
      refine ⟨by omega, ?_, by omega⟩
      unfold pagesFor; omega
    | false =>
      obtain ⟨⟨hpos, htop⟩, -⟩ := h
      simp only [objectSpan, spanPages, Bool.false_eq_true, if_false]
      refine ⟨hpos, ?_, hp⟩
      rcases htop with htop | ⟨-, hone⟩
      · omega
      · unfold pagesFor; omega

theorem alignPage_span {aio : Bool} {o : LxObject} {rest : List LxObject}
    (h : 0x1000 * spanPages aio o rest < 0x100000000) :
    alignPage (objectSpan aio o rest) / 0x1000 = spanPages aio o rest := by
  refine alignPage_div ?_
  unfold spanPages pagesFor at h
  omega

/-! ## The object page table -/

/-- The row of page `j` of an object whose data starts at `data`. -/
def row (aio : Bool) (o : LxObject) (rest : List LxObject) (data j : ℕ) : O32Map :=
  let offPageData := u32 (data + min (0x1000 * j) o.cbPhysical)
  if 0x1000 * j < o.cbPhysical then
    ⟨offPageData, min (o.cbPhysical - 0x1000 * j) 0x1000, .valid⟩
  else
    ⟨offPageData, if aio ∧ rest ≠ [] then 0x1000
      else min (sub32 o.cbVirtual (0x1000 * j)) 0x1000, .zeroed⟩

def rows (aio : Bool) (data : ℕ) : List LxObject → List O32Map
  | [] => []
  | o :: rest => (List.range' 0 (spanPages aio o rest)).map (row aio o rest data) ++
      rows aio (data + o.cbPhysical) rest

theorem offPageData_next (data phys j : ℕ) :
    (if 0x1000 * j < phys then
      add32 (u32 (data + min (0x1000 * j) phys)) (min (phys - 0x1000 * j) 0x1000)
    else u32 (data + min (0x1000 * j) phys)) = u32 (data + min (0x1000 * (j + 1)) phys) := by
  split_ifs with hlt
  · unfold add32 u32
    omega
  · rw [Nat.min_eq_right (Nat.le_of_not_lt hlt),
      Nat.min_eq_right (show phys ≤ 0x1000 * (j + 1) by omega)]

theorem objectPageTableFrom_object {aio : Bool} {o : LxObject} {rest : List LxObject}
    (hspan : 0x1000 * spanPages aio o rest < 0x100000000)
    (hphys : o.cbPhysical ≤ objectSpan aio o rest) (n data j k : ℕ)
    (hjk : j + (k + 1) = spanPages aio o rest) :
    objectPageTableFrom aio (n + (k + 1)) (o :: rest) (0x1000 * j)
        (u32 (data + min (0x1000 * j) o.cbPhysical)) =
      (objectPageTableFrom aio n rest 0 (u32 (data + o.cbPhysical))).map
        ((List.range' j (k + 1)).map (row aio o rest data) ++ ·) := by
  have hnowrap : 0x1000 * j + 0x1000 < 0x100000000 := by omega
  induction k generalizing j with
  | zero =>
    have hend : objectSpan aio o rest ≤ 0x1000 * j + 0x1000 := by
      unfold spanPages pagesFor at hjk
      omega
    have hmin : min (0x1000 * (j + 1)) o.cbPhysical = o.cbPhysical := by omega
    simp only [objectPageTableFrom, add32_of_lt hnowrap, hend, if_true, offPageData_next, hmin]
    rfl
  | succ k ih =>
    have hnot : ¬ objectSpan aio o rest ≤ 0x1000 * j + 0x1000 := by
      unfold spanPages pagesFor at hjk
      omega
    have hnext := ih (j + 1) (by omega) (by omega)
    rw [show n + (k + 1 + 1) = (n + (k + 1)) + 1 by omega, objectPageTableFrom]
    simp only [add32_of_lt hnowrap, hnot, if_false, offPageData_next]
    rw [show 0x1000 * j + 0x1000 = 0x1000 * (j + 1) by omega, hnext, Option.map_map,
      List.range'_succ]
    rfl

theorem objectPageTableFrom_rows {aio : Bool} {objs : List LxObject} (hw : WellPlaced objs)
    (hs : SpansFit aio objs) (data : ℕ) :
    objectPageTableFrom aio (getCountOfPages aio objs) objs 0 (u32 data) =
      some (rows aio data objs) := by
  induction objs generalizing data with
  | nil => rfl
  | cons o rest ih =>
    obtain ⟨hpos, hspan, hphys⟩ := spansFit_span hw hs
    obtain ⟨k, hk⟩ : ∃ k, spanPages aio o rest = k + 1 :=
      Nat.exists_eq_succ_of_ne_zero (Nat.pos_iff_ne_zero.mp (pagesFor_pos.mpr hpos))
    have hobj := objectPageTableFrom_object hspan hphys (getCountOfPages aio rest) data 0 k
      (by omega)
    simp only [Nat.mul_zero, Nat.zero_min, Nat.add_zero] at hobj
    rw [ih hw.2.2.2.2 (spansFit_tail hs)] at hobj
    rw [getCountOfPages, alignPage_span hspan, Nat.add_comm, hk, hobj, rows, hk]
    rfl

/-! ## The fixup page table -/

def fixupPages (aio : Bool) (iObj : ℕ) : List LxObject → List (ℕ × ℕ)
  | [] => []
  | o :: rest => (List.range' 0 (spanPages aio o rest)).map
      (fun j => (iObj, o.ulRVA + 0x1000 * j)) ++ fixupPages aio (iObj + 1) rest

/-- The RVA the page loop goes on with after an object. -/
def nextRVA (ulRVAPage : ℕ) : List LxObject → ℕ
  | [] => ulRVAPage
  | next :: _ => next.ulRVA

theorem fixupPagesFrom_cons (aio : Bool) (room iObj : ℕ) (o : LxObject) (rest : List LxObject)
    (ulRVAPage : ℕ) : fixupPagesFrom aio (room + 1) iObj (o :: rest) ulRVAPage =
      (if objectEnd aio o rest ≤ add32 ulRVAPage 0x1000 then
        fixupPagesFrom aio room (iObj + 1) rest (nextRVA ulRVAPage rest)
      else fixupPagesFrom aio room iObj (o :: rest) (add32 ulRVAPage 0x1000)).map
        ((iObj, ulRVAPage) :: ·) := by
  cases rest <;> rfl

theorem fixupPagesFrom_nil (aio : Bool) (room iObj ulRVAPage ulRVAPage' : ℕ) :
    fixupPagesFrom aio room iObj [] ulRVAPage = fixupPagesFrom aio room iObj [] ulRVAPage' := by
  cases room <;> rfl

theorem objectEnd_le {aio : Bool} {o : LxObject} {rest : List LxObject}
    (hw : WellPlaced (o :: rest)) (hs : SpansFit aio (o :: rest)) {j : ℕ}
    (hj : j < spanPages aio o rest) :
    o.ulRVA + 0x1000 * j < 0x100000000 ∧
      (objectEnd aio o rest ≤ add32 (o.ulRVA + 0x1000 * j) 0x1000 ↔
        j + 1 = spanPages aio o rest) ∧
      (j + 1 < spanPages aio o rest → o.ulRVA + 0x1000 * j + 0x1000 < 0x100000000) := by
  obtain ⟨hp, hr, hv, he, hw'⟩ := hw
  have alone : ∀ s, s = o.cbVirtual → 0 < o.cbVirtual → TopFits o →
      o.ulRVA + o.cbVirtual ≤ 0x100000000 → j < pagesFor s →
      o.ulRVA + 0x1000 * j < 0x100000000 ∧
        (add32 o.ulRVA o.cbVirtual ≤ add32 (o.ulRVA + 0x1000 * j) 0x1000 ↔ j + 1 = pagesFor s) ∧
        (j + 1 < pagesFor s → o.ulRVA + 0x1000 * j + 0x1000 < 0x100000000) := by
    rintro s rfl hpos htop hle hj
    unfold TopFits at htop
    unfold pagesFor at *
    unfold add32 u32
    rcases htop with htop | ⟨htop, hone⟩
    · refine ⟨by omega, ?_, by omega⟩
      constructor <;> intro h <;> omega
    · refine ⟨by omega, ?_, by omega⟩
      constructor <;> intro h <;> omega
  cases rest with
  | nil => exact alone _ rfl hs.1 hs.2 he hj
  | cons next rest =>
    have hn : next.ulRVA < 0x100000000 := hw'.2.1
    cases aio with
    | true =>
      obtain ⟨⟨hlt, hmod⟩, -⟩ := hs
      simp only [spanPages, objectSpan, objectEnd, if_true,
        sub32_of_le (Nat.le_of_lt hlt) hn] at hj ⊢
      unfold pagesFor at *
      refine ⟨by omega, ?_, by omega⟩
      rw [add32_of_lt (show o.ulRVA + 0x1000 * j + 0x1000 < 0x100000000 by omega)]
      constructor <;> intro h <;> omega
    | false =>
      simp only at he
      exact alone _ rfl hs.1.1 hs.1.2 (by omega) hj

theorem fixupPagesFrom_nextRVA (aio : Bool) (room iObj ulRVAPage : ℕ) (rest : List LxObject) :
    fixupPagesFrom aio room iObj rest (nextRVA ulRVAPage rest) =
      fixupPagesFrom aio room iObj rest (nextRVA 0 rest) := by
  cases rest with
  | nil => exact fixupPagesFrom_nil aio room iObj _ _
  | cons next rest => rfl

theorem fixupPagesFrom_object {aio : Bool} {o : LxObject} {rest : List LxObject}
    (hw : WellPlaced (o :: rest)) (hs : SpansFit aio (o :: rest)) (room iObj j k : ℕ)
    (hjk : j + (k + 1) = spanPages aio o rest) :
    fixupPagesFrom aio (room + (k + 1)) iObj (o :: rest) (o.ulRVA + 0x1000 * j) =
      (fixupPagesFrom aio room (iObj + 1) rest (nextRVA 0 rest)).map
        ((List.range' j (k + 1)).map (fun j => (iObj, o.ulRVA + 0x1000 * j)) ++ ·) := by
  obtain ⟨-, hend, hnowrap⟩ := objectEnd_le hw hs (show j < spanPages aio o rest by omega)
  induction k generalizing j with
  | zero =>
    rw [fixupPagesFrom_cons, if_pos (hend.mpr (by omega)), fixupPagesFrom_nextRVA]
    rfl
  | succ k ih =>
    obtain ⟨-, hend', hnowrap'⟩ := objectEnd_le hw hs (show j + 1 < spanPages aio o rest by omega)
    have hnext := ih (j + 1) (by omega) hend' hnowrap'
    rw [show room + (k + 1 + 1) = (room + (k + 1)) + 1 by omega, fixupPagesFrom_cons,
      if_neg (fun h => by have := hend.mp h; omega), add32_of_lt (hnowrap (by omega)),
      show o.ulRVA + 0x1000 * j + 0x1000 = o.ulRVA + 0x1000 * (j + 1) by omega, hnext,
      List.range'_succ]
    cases fixupPagesFrom aio room (iObj + 1) rest (nextRVA 0 rest) <;> rfl

theorem fixupPagesFrom_pages {aio : Bool} {objs : List LxObject} (hw : WellPlaced objs)
    (hs : SpansFit aio objs) (iObj : ℕ) :
    fixupPagesFrom aio (getCountOfPages aio objs + 1) iObj objs (nextRVA 0 objs) =
      .ok (fixupPages aio iObj objs) := by
  induction objs generalizing iObj with
  | nil => rfl
  | cons o rest ih =>
    obtain ⟨hpos, hspan, -⟩ := spansFit_span hw hs
    obtain ⟨k, hk⟩ : ∃ k, spanPages aio o rest = k + 1 :=
      Nat.exists_eq_succ_of_ne_zero (Nat.pos_iff_ne_zero.mp (pagesFor_pos.mpr hpos))
    have hobj := fixupPagesFrom_object hw hs (getCountOfPages aio rest + 1) iObj 0 k (by omega)
    rw [ih hw.2.2.2.2 (spansFit_tail hs)] at hobj
    rw [getCountOfPages, alignPage_span hspan, hk,
      show k + 1 + getCountOfPages aio rest + 1 = getCountOfPages aio rest + 1 + (k + 1) by omega,
      fixupPages, hk]
    exact hobj

theorem makeObjectPageTable_eq {aio : Bool} {objs : List LxObject} (hw : WellPlaced objs)
    (hs : SpansFit aio objs) : makeObjectPageTable aio objs = some (rows aio 0 objs) :=
  objectPageTableFrom_rows hw hs 0

theorem count_pos {aio : Bool} {o : LxObject} {rest : List LxObject}
    (hw : WellPlaced (o :: rest)) (hs : SpansFit aio (o :: rest)) :
    0 < getCountOfPages aio (o :: rest) := by
  obtain ⟨hpos, hspan, -⟩ := spansFit_span hw hs
  have := pagesFor_pos.mpr hpos
  rw [getCountOfPages, alignPage_span hspan]
  unfold spanPages
  omega

theorem makeFixupsPages_eq {aio : Bool} {objs : List LxObject} (hw : WellPlaced objs)
    (hs : SpansFit aio objs) : makeFixupsPages aio objs = .ok (fixupPages aio 0 objs) := by
  cases objs with
  | nil => rfl
  | cons o rest =>
    have hcount := count_pos hw hs
    simp only [makeFixupsPages, Nat.pos_iff_ne_zero.mp hcount, if_false]
    exact fixupPagesFrom_pages hw hs 0

theorem rows_length {aio : Bool} {objs : List LxObject} (hw : WellPlaced objs)
    (hs : SpansFit aio objs) (data : ℕ) : (rows aio data objs).length = getCountOfPages aio objs := by
  induction objs generalizing data with
  | nil => rfl
  | cons o rest ih =>
    obtain ⟨-, hspan, -⟩ := spansFit_span hw hs
    simp [rows, getCountOfPages, alignPage_span hspan, ih hw.2.2.2.2 (spansFit_tail hs)]

theorem fixupPages_length {aio : Bool} {objs : List LxObject} (hw : WellPlaced objs)
    (hs : SpansFit aio objs) (iObj : ℕ) :
    (fixupPages aio iObj objs).length = getCountOfPages aio objs := by
  induction objs generalizing iObj with
  | nil => rfl
  | cons o rest ih =>
    obtain ⟨-, hspan, -⟩ := spansFit_span hw hs
    simp [fixupPages, getCountOfPages, alignPage_span hspan, ih hw.2.2.2.2 (spansFit_tail hs)]

end Odin32.LxPagesWalk
