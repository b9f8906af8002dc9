import Mathlib
import Odin32.LxPagesWalk

/-! # Agreement of the page tables

When do the tables describe the image? Each page of an LX object is looked up in
the page table and in the fixup page table, and the bytes its row selects through
the object layout of `read` are compared with the bytes of the PE object that lies
there. The answer is exact: no span may be empty or end off a page boundary, and
neither RVAs nor data offsets may run over the top of the 32-bit range. -/

set_option autoImplicit false

namespace Odin32.LxPagesAgree
open Odin32.Word Odin32.LxPages Odin32.LxPagesWalk

/-- Where a byte of a loaded page comes from. -/
inductive PageByte where
  | zero
  | noData
  | file (iObj offObject : ℕ)
deriving DecidableEq, Repr

/-- Byte `b` of the page a row describes: read through the object layout below the
row's size, and zero above it and in zeroed pages. -/
def pageByte (e32Datapage : ℕ) (paObjects : List LxObject) (m : O32Map) (b : ℕ) : PageByte :=
  if m.o32Pageflags = .valid ∧ b < m.o32Pagesize then
    match findObject (add32 (add32 e32Datapage m.o32Pagedataoffset) b) 0
        (setOffLXFile e32Datapage paObjects) with
    | some (iObj, offObject) => .file iObj offObject
    | none => .noData
  else .zero

/-- The byte of a PE object at an offset: from the file within `cbPhysical`. -/
def objectByte (iObj : ℕ) (o : LxObject) (offObject : ℕ) : PageByte :=
  if offObject < o.cbPhysical then .file iObj offObject else .zero

/-- Page `j` of LX object `t` lies at `offObject` in PE object `iObj`. -/
def PlacedAt (aio : Bool) (paObjects : List LxObject) (t j iObj offObject : ℕ) : Prop :=
  if aio then ∃ first o, paObjects.head? = some first ∧ paObjects[iObj]? = some o ∧
    o.ulRVA + offObject = first.ulRVA + 0x1000 * j ∧
    offObject < objectSpan aio o (paObjects.drop (iObj + 1))
  else iObj = t ∧ offObject = 0x1000 * j

/-- The tables made for an object array describe its image. -/
structure TablesAgree (ulImageBase e32Datapage : ℕ) (fAllRW aio : Bool)
    (paObjects : List LxObject) : Prop where
  mapsizes : ((makeObjectTable ulImageBase fAllRW aio paObjects).map O32Obj.o32Mapsize).sum =
    getCountOfPages aio paObjects
  complete : ∀ e ∈ makeObjectTable ulImageBase fAllRW aio paObjects,
    e.o32Mapsize = pagesFor e.o32Size
  pages : ∃ tab fix, makeObjectPageTable aio paObjects = some tab ∧
    makeFixupsPages aio paObjects = .ok fix ∧
    tab.length = getCountOfPages aio paObjects ∧ fix.length = getCountOfPages aio paObjects ∧
    ∀ t e, (makeObjectTable ulImageBase fAllRW aio paObjects)[t]? = some e →
      ∀ j < e.o32Mapsize, ∃ m iObj o offObject, tab[e.o32Pagemap - 1 + j]? = some m ∧
        paObjects[iObj]? = some o ∧
        fix[e.o32Pagemap - 1 + j]? = some (iObj, o.ulRVA + offObject) ∧
        PlacedAt aio paObjects t j iObj offObject ∧
        ∀ b < 0x1000, pageByte e32Datapage paObjects m b = objectByte iObj o (offObject + b)

/-- The one big object ends below the top of the address space and has as many
pages as the objects it is made of. -/
def OneObjectFits : List LxObject → Prop
  | [] => True
  | o :: rest =>
    let last := (o :: rest).getLast (List.cons_ne_nil o rest)
    last.ulRVA + last.cbVirtual + 0xfff < 0x100000000 ∧
      pagesFor (last.ulRVA + last.cbVirtual) =
        (last.ulRVA - o.ulRVA) / 0x1000 + pagesFor last.cbVirtual

/-- The file bytes of all objects lie below the top of the LX file offsets. -/
def DataFits (e32Datapage : ℕ) (paObjects : List LxObject) : Prop :=
  e32Datapage + (paObjects.map LxObject.cbPhysical).sum < 0x100000000

/-! ## Splitting the tables at an object -/

def physBefore (pre : List LxObject) : ℕ := (pre.map LxObject.cbPhysical).sum

def pagesBefore (aio : Bool) : List LxObject → List LxObject → ℕ
  | [], _ => 0
  | p :: pre, suf => spanPages aio p (pre ++ suf) + pagesBefore aio pre suf

theorem rows_split (aio : Bool) (data : ℕ) (pre suf : List LxObject) :
    ∃ head, head.length = pagesBefore aio pre suf ∧
      rows aio data (pre ++ suf) = head ++ rows aio (data + physBefore pre) suf := by
  induction pre generalizing data with
  | nil => exact ⟨[], rfl, by simp [physBefore]⟩
  | cons p pre ih =>
    obtain ⟨head, hlen, heq⟩ := ih (data + p.cbPhysical)
    refine ⟨(List.range' 0 (spanPages aio p (pre ++ suf))).map (row aio p (pre ++ suf) data) ++ head,
      by simp [pagesBefore, hlen], ?_⟩
    simp only [List.cons_append, rows, heq, List.append_assoc]
    rw [show data + physBefore (p :: pre) = data + p.cbPhysical + physBefore pre by
      simp [physBefore, Nat.add_assoc]]

theorem fixupPages_split (aio : Bool) (iObj : ℕ) (pre suf : List LxObject) :
    ∃ head, head.length = pagesBefore aio pre suf ∧
      fixupPages aio iObj (pre ++ suf) = head ++ fixupPages aio (iObj + pre.length) suf := by
  induction pre generalizing iObj with
  | nil => exact ⟨[], rfl, rfl⟩
  | cons p pre ih =>
    obtain ⟨head, hlen, heq⟩ := ih (iObj + 1)
    refine ⟨(List.range' 0 (spanPages aio p (pre ++ suf))).map
      (fun j => (iObj, p.ulRVA + 0x1000 * j)) ++ head, by simp [pagesBefore, hlen], ?_⟩
    simp only [List.cons_append, fixupPages, heq, List.append_assoc, List.length_cons]
    rw [show iObj + (pre.length + 1) = iObj + 1 + pre.length by omega]

theorem tables_at {aio : Bool} (pre : List LxObject) {rest : List LxObject} {o : LxObject} {j : ℕ}
    (hj : j < spanPages aio o rest) :
    (rows aio 0 (pre ++ o :: rest))[pagesBefore aio pre (o :: rest) + j]? =
        some (row aio o rest (physBefore pre) j) ∧
      (fixupPages aio 0 (pre ++ o :: rest))[pagesBefore aio pre (o :: rest) + j]? =
        some (pre.length, o.ulRVA + 0x1000 * j) := by
  obtain ⟨head, hlen, hrows⟩ := rows_split aio 0 pre (o :: rest)
  obtain ⟨head', hlen', hfix⟩ := fixupPages_split aio 0 pre (o :: rest)
  constructor
  · rw [hrows, ← hlen, List.getElem?_append_right (Nat.le_add_right _ _), Nat.add_sub_cancel_left,
      rows, List.getElem?_append_left (by simpa using hj)]
    simp [hj]
  · rw [hfix, ← hlen', List.getElem?_append_right (Nat.le_add_right _ _), Nat.add_sub_cancel_left,
      fixupPages, List.getElem?_append_left (by simpa using hj)]
    simp [hj]

theorem page_located {aio : Bool} {objs : List LxObject} {k : ℕ}
    (hk : k < pagesBefore aio objs []) :
    ∃ pre o rest j, objs = pre ++ o :: rest ∧ j < spanPages aio o rest ∧
      k = pagesBefore aio pre (o :: rest) + j := by
  induction objs generalizing k with
  | nil => simp [pagesBefore] at hk
  | cons o rest ih =>
    simp only [pagesBefore, List.append_nil] at hk
    by_cases hlt : k < spanPages aio o rest
    · exact ⟨[], o, rest, k, rfl, hlt, by simp [pagesBefore]⟩
    · obtain ⟨pre, o', rest', j, rfl, hj, hkj⟩ := ih (k := k - spanPages aio o rest) (by omega)
      refine ⟨o :: pre, o', rest', j, rfl, hj, ?_⟩
      simp only [pagesBefore]
      omega

theorem count_eq_pagesBefore {aio : Bool} {objs : List LxObject} (hw : WellPlaced objs)
    (hs : SpansFit aio objs) : getCountOfPages aio objs = pagesBefore aio objs [] := by
  induction objs with
  | nil => rfl
  | cons o rest ih =>
    obtain ⟨-, hspan, -⟩ := spansFit_span hw hs
    simp only [getCountOfPages, pagesBefore, List.append_nil, alignPage_span hspan,
      ih hw.2.2.2.2 (spansFit_tail hs)]

/-! ## The object layout of `read` -/

theorem findObject_skip {e32Datapage offLXFile : ℕ} {p : LxObject} {tail : List LxObject}
    (hfit : e32Datapage + p.cbPhysical < 0x100000000)
    (hle : e32Datapage + p.cbPhysical ≤ offLXFile) (iObj : ℕ) :
    findObject offLXFile iObj (setOffLXFile e32Datapage (p :: tail)) =
      findObject offLXFile (iObj + 1) (setOffLXFile (e32Datapage + p.cbPhysical) tail) := by
  rw [setOffLXFile]
  split_ifs with hpos
  · rw [findObject, if_pos (by simp only [add32_of_lt hfit]; exact hle), add32_of_lt hfit]
  · have hzero : p.cbPhysical = 0 := by omega
    rw [findObject, if_pos (by simp [hzero, add32, u32]), hzero]
    rfl

theorem findObject_at {e32Datapage : ℕ} {pre : List LxObject} (rest : List LxObject) {o : LxObject} {off : ℕ}
    (hoff : off < o.cbPhysical)
    (hfit : e32Datapage + physBefore pre + o.cbPhysical < 0x100000000) (iObj : ℕ) :
    findObject (e32Datapage + physBefore pre + off) iObj
        (setOffLXFile e32Datapage (pre ++ o :: rest)) = some (iObj + pre.length, off) := by
  induction pre generalizing e32Datapage iObj with
  | nil =>
    simp only [physBefore, List.map_nil, List.sum_nil, Nat.add_zero] at hfit ⊢
    simp only [List.nil_append, setOffLXFile, show 0 < o.cbPhysical by omega, if_true, findObject,
      add32_of_lt hfit, show ¬ e32Datapage + o.cbPhysical ≤ e32Datapage + off by omega, if_false]
    rw [sub32_of_le (by omega) (by omega)]
    simp
  | cons p pre ih =>
    have hphys : e32Datapage + physBefore (p :: pre) = e32Datapage + p.cbPhysical + physBefore pre := by
      simp [physBefore, Nat.add_assoc]
    rw [hphys] at hfit ⊢
    rw [List.cons_append, findObject_skip (by omega) (by omega), ih hfit]
    simp only [List.length_cons, Option.some.injEq, Prod.mk.injEq, and_true]
    omega

theorem pageByte_row {aio : Bool} {e32Datapage : ℕ} {pre rest : List LxObject} {o : LxObject}
    (hdata : DataFits e32Datapage (pre ++ o :: rest)) (j b : ℕ) (hb : b < 0x1000) :
    pageByte e32Datapage (pre ++ o :: rest) (row aio o rest (physBefore pre) j) b =
      objectByte pre.length o (0x1000 * j + b) := by
  have hfit : e32Datapage + physBefore pre + o.cbPhysical < 0x100000000 := by
    simp only [DataFits, List.map_append, List.map_cons, List.sum_append, List.sum_cons] at hdata
    simp only [physBefore]
    omega
  unfold pageByte objectByte row
  by_cases hj : 0x1000 * j < o.cbPhysical
  · simp only [hj, if_true, true_and]
    by_cases hlt : 0x1000 * j + b < o.cbPhysical
    · have hoffset : add32 (add32 e32Datapage (u32 (physBefore pre + min (0x1000 * j)
          o.cbPhysical))) b = e32Datapage + physBefore pre + (0x1000 * j + b) := by
        unfold add32 u32
        omega
      have hat := findObject_at rest hlt hfit 0
      rw [Nat.zero_add] at hat
      rw [if_pos (by omega), hoffset, hat, if_pos hlt]
    · rw [if_neg (by omega), if_neg hlt]
  · simp only [hj, if_false, reduceCtorEq, false_and]
    rw [if_neg (by omega)]

/-! ## Tables that agree -/

theorem objectSpan_false (o : LxObject) (rest : List LxObject) :
    objectSpan false o rest = o.cbVirtual := by
  cases rest <;> rfl

theorem objectTableFrom_mapsizes (ulImageBase : ℕ) (fAllRW : Bool) (ulPageMap : ℕ)
    (objs : List LxObject) :
    ((objectTableFrom ulImageBase fAllRW ulPageMap objs).map O32Obj.o32Mapsize).sum =
      getCountOfPages false objs := by
  induction objs generalizing ulPageMap with
  | nil => rfl
  | cons o rest ih =>
    simp only [objectTableFrom, List.map_cons, List.sum_cons, ih, getCountOfPages,
      objectSpan_false]

/-- The row of the object table for the object behind `pre`, when no size is
rounded over the top of the range. -/
theorem objectTableFrom_at {ulImageBase ulPageMap : ℕ} {fAllRW : Bool} {objs : List LxObject}
    {t : ℕ} {e : O32Obj}
    (hround : ∀ o ∈ objs, alignPage o.cbVirtual / 0x1000 = pagesFor o.cbVirtual)
    (he : (objectTableFrom ulImageBase fAllRW ulPageMap objs)[t]? = some e) :
    ∃ pre o rest, objs = pre ++ o :: rest ∧ pre.length = t ∧
      e.o32Pagemap = ulPageMap + pagesBefore false pre (o :: rest) ∧
      e.o32Mapsize = spanPages false o rest ∧ e.o32Size = objectSpan false o rest := by
  induction objs generalizing t ulPageMap with
  | nil => simp [objectTableFrom] at he
  | cons o rest ih =>
    have hsp := objectSpan_false o rest
    have hmap : alignPage o.cbVirtual / 0x1000 = spanPages false o rest := by
      rw [hround o (by simp), spanPages, hsp]
    cases t with
    | zero =>
      simp only [objectTableFrom, List.getElem?_cons_zero, Option.some.injEq] at he
      subst he
      exact ⟨[], o, rest, rfl, rfl, rfl, hmap, hsp.symm⟩
    | succ t =>
      simp only [objectTableFrom, List.getElem?_cons_succ] at he
      obtain ⟨pre, o', rest', rfl, hlen, hpm, hms, hsz⟩ :=
        ih (fun o' ho' => hround o' (by simp [ho'])) he
      refine ⟨o :: pre, o', rest', rfl, by simp [hlen], ?_, hms, hsz⟩
      rw [hpm, hmap]
      simp only [pagesBefore]
      omega

/-- In the one-object layout the pages of all objects follow each other without
gaps in the RVAs. -/
theorem oneObject_rva {pre rest : List LxObject} {o : LxObject}
    (hw : WellPlaced (pre ++ o :: rest)) (hs : SpansFit true (pre ++ o :: rest)) :
    ∃ first, (pre ++ o :: rest).head? = some first ∧
      first.ulRVA + 0x1000 * pagesBefore true pre (o :: rest) = o.ulRVA := by
  induction pre with
  | nil => exact ⟨o, rfl, by simp [pagesBefore]⟩
  | cons p pre ih =>
    obtain ⟨first, hfirst, heq⟩ := ih hw.2.2.2.2 (spansFit_tail hs)
    refine ⟨p, rfl, ?_⟩
    rcases hsplit : pre ++ o :: rest with - | ⟨next, tail⟩
    · simp at hsplit
    · rw [hsplit] at hfirst
      obtain rfl : next = first := by simpa using hfirst
      rw [List.cons_append, hsplit] at hw hs
      obtain ⟨⟨hlt, hmod⟩, -⟩ := hs
      have hn : next.ulRVA < 0x100000000 := hw.2.2.2.2.2.1
      simp only [pagesBefore, hsplit, spanPages, objectSpan, if_true,
        sub32_of_le (Nat.le_of_lt hlt) hn]
      unfold pagesFor
      omega

theorem oneObject_count {o : LxObject} {rest : List LxObject} (hw : WellPlaced (o :: rest))
    (hs : SpansFit true (o :: rest)) :
    getCountOfPages true (o :: rest) =
      (((o :: rest).getLast (by simp)).ulRVA - o.ulRVA) / 0x1000 +
        pagesFor ((o :: rest).getLast (by simp)).cbVirtual := by
  obtain ⟨pre, last, hlast⟩ : ∃ pre last, o :: rest = pre ++ [last] :=
    ⟨_, _, (List.dropLast_concat_getLast (List.cons_ne_nil o rest)).symm⟩
  have hget : (o :: rest).getLast (by simp) = last := by simp [hlast]
  rw [hget, count_eq_pagesBefore hw hs]
  rw [hlast] at hw hs ⊢
  obtain ⟨first, hfirst, hrva⟩ := oneObject_rva hw hs
  rw [← hlast] at hfirst
  obtain rfl : o = first := by simpa using hfirst
  have hsum : ∀ (xs : List LxObject), pagesBefore true (xs ++ [last]) [] =
      pagesBefore true xs [last] + pagesFor last.cbVirtual := by
    intro xs
    induction xs with
    | nil => simp [pagesBefore, spanPages, objectSpan]
    | cons x xs ih => simp only [List.cons_append, pagesBefore, List.append_nil, ih]; omega
  rw [hsum]
  omega

theorem makeObjectTable_false (ulImageBase : ℕ) (fAllRW : Bool) (objs : List LxObject) :
    makeObjectTable ulImageBase fAllRW false objs = objectTableFrom ulImageBase fAllRW 1 objs := by
  cases objs <;> rfl

theorem pages_at {aio : Bool} {e32Datapage : ℕ} {pre rest : List LxObject} {o : LxObject} {j : ℕ}
    (hdata : DataFits e32Datapage (pre ++ o :: rest)) (hj : j < spanPages aio o rest) :
    ∃ m, (rows aio 0 (pre ++ o :: rest))[pagesBefore aio pre (o :: rest) + j]? = some m ∧
      (pre ++ o :: rest)[pre.length]? = some o ∧
      (fixupPages aio 0 (pre ++ o :: rest))[pagesBefore aio pre (o :: rest) + j]? =
        some (pre.length, o.ulRVA + 0x1000 * j) ∧
      ∀ b < 0x1000, pageByte e32Datapage (pre ++ o :: rest) m b =
        objectByte pre.length o (0x1000 * j + b) := by
  obtain ⟨hrow, hfix⟩ := tables_at pre hj
  exact ⟨_, hrow, by simp, hfix, fun b hb => pageByte_row hdata j b hb⟩

theorem round_of_fits {objs : List LxObject} (hw : WellPlaced objs) (hs : SpansFit false objs) :
    ∀ o ∈ objs, alignPage o.cbVirtual / 0x1000 = pagesFor o.cbVirtual := by
  induction objs with
  | nil => simp
  | cons o rest ih =>
    intro o' ho'
    rcases List.mem_cons.mp ho' with rfl | ho'
    · obtain ⟨-, hspan, -⟩ := spansFit_span hw hs
      have := alignPage_span hspan
      rwa [spanPages, objectSpan_false] at this
    · exact ih hw.2.2.2.2 (spansFit_tail hs) o' ho'

theorem agree_of_fits {ulImageBase e32Datapage : ℕ} {fAllRW aio : Bool} {objs : List LxObject}
    (hw : WellPlaced objs) (hs : SpansFit aio objs) (hone : aio = true → OneObjectFits objs)
    (hdata : DataFits e32Datapage objs) :
    TablesAgree ulImageBase e32Datapage fAllRW aio objs := by
  have htab := makeObjectPageTable_eq hw hs
  have hfix := makeFixupsPages_eq hw hs
  cases aio with
  | false =>
    refine ⟨?_, ?_, rows false 0 objs, fixupPages false 0 objs, htab, hfix, rows_length hw hs 0,
      fixupPages_length hw hs 0, ?_⟩
    · rw [makeObjectTable_false, objectTableFrom_mapsizes]
    · intro e he
      rw [makeObjectTable_false] at he
      obtain ⟨t, ht⟩ := List.mem_iff_getElem?.mp he
      obtain ⟨pre, o, rest, -, -, -, hms, hsz⟩ := objectTableFrom_at (round_of_fits hw hs) ht
      rw [hms, hsz, spanPages]
    · intro t e he j hj
      rw [makeObjectTable_false] at he
      obtain ⟨pre, o, rest, rfl, rfl, hpm, hms, -⟩ := objectTableFrom_at (round_of_fits hw hs) he
      obtain ⟨m, hrow, ho, hpage, hbytes⟩ := pages_at hdata (hms ▸ hj)
      refine ⟨m, pre.length, o, 0x1000 * j, ?_, ho, ?_, ?_, hbytes⟩
      · rw [hpm, Nat.add_sub_cancel_left, hrow]
      · rw [hpm, Nat.add_sub_cancel_left, hpage]
      · simp [PlacedAt]
  | true =>
    cases objs with
    | nil => exact ⟨rfl, by simp [makeObjectTable], [], [], rfl, rfl, rfl, rfl, by simp [makeObjectTable]⟩
    | cons o rest =>
      obtain ⟨hend, hpages⟩ := hone rfl
      have hcount := oneObject_count hw hs
      set last := (o :: rest).getLast (by simp) with hlast
      have hsize : add32 last.ulRVA last.cbVirtual = last.ulRVA + last.cbVirtual :=
        add32_of_lt (by omega)
      have hmap : alignPage (last.ulRVA + last.cbVirtual) / 0x1000 =
          getCountOfPages true (o :: rest) := by
        rw [alignPage_div hend, hpages, hcount]
      refine ⟨?_, ?_, rows true 0 (o :: rest), fixupPages true 0 (o :: rest), htab, hfix,
        rows_length hw hs 0, fixupPages_length hw hs 0, ?_⟩
      · simp [makeObjectTable, ← hlast, hsize, hmap]
      · intro e he
        simp only [makeObjectTable, if_true, List.mem_singleton, ← hlast, hsize] at he
        subst he
        exact alignPage_div hend
      · intro t e he j hj
        have ht : t = 0 := by
          by_contra hne
          simp [makeObjectTable, hne] at he
        subst ht
        simp only [makeObjectTable, if_true, List.getElem?_cons_zero, Option.some.injEq, ← hlast,
          hsize] at he
        subst he
        simp only [hmap, count_eq_pagesBefore hw hs] at hj
        obtain ⟨pre, o', rest', j', hsplit, hj', hk⟩ := page_located hj
        rw [hsplit] at hw hs hdata
        obtain ⟨m, hrow, ho, hpage, hbytes⟩ := pages_at hdata hj'
        obtain ⟨first, hfirst, hrva⟩ := oneObject_rva hw hs
        simp only [hsplit, show (1 : ℕ) - 1 + j = j by omega]
        rw [← hk] at hrow hpage
        refine ⟨m, pre.length, o', 0x1000 * j', hrow, ho, hpage, ?_, hbytes⟩
        refine ⟨first, o', hfirst, ho, by omega, ?_⟩
        rw [show (pre ++ o' :: rest').drop (pre.length + 1) = rest' by simp]
        exact lt_pagesFor.mp hj'

end Odin32.LxPagesAgree
