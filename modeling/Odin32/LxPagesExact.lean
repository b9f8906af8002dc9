import Odin32.LxPagesAgree

/-! # The conditions are necessary

Conversely, a fixup page table that lists exactly the pages of the image shows
that every walk left its objects at the right page, because each walk gives at
least one page to every object; and the bytes of the first object that crosses the
top of the file offsets are not found. -/

set_option autoImplicit false

namespace Odin32.LxPagesExact
open Odin32.Word Odin32.LxPages Odin32.LxPagesWalk Odin32.LxPagesAgree

theorem fixupPagesFrom_inv {aio : Bool} {room iObj ulRVAPage : ℕ} {o : LxObject}
    {rest : List LxObject} {l : List (ℕ × ℕ)}
    (h : fixupPagesFrom aio room iObj (o :: rest) ulRVAPage = .ok l) :
    ∃ room' l', l = (iObj, ulRVAPage) :: l' ∧
      ((objectEnd aio o rest ≤ add32 ulRVAPage 0x1000 ∧
          fixupPagesFrom aio room' (iObj + 1) rest (nextRVA 0 rest) = .ok l') ∨
        (¬ objectEnd aio o rest ≤ add32 ulRVAPage 0x1000 ∧
          fixupPagesFrom aio room' iObj (o :: rest) (add32 ulRVAPage 0x1000) = .ok l')) := by
  cases room with
  | zero => simp [fixupPagesFrom] at h
  | succ room =>
    rw [fixupPagesFrom_cons, fixupPagesFrom_nextRVA] at h
    split_ifs at h with hend
    · rcases hl : fixupPagesFrom aio room (iObj + 1) rest (nextRVA 0 rest) with err | l'
      · simp [hl, Except.map] at h
      · rw [hl] at h
        exact ⟨room, l', (Except.ok.inj h).symm, Or.inl ⟨hend, hl⟩⟩
    · rcases hl : fixupPagesFrom aio room iObj (o :: rest) (add32 ulRVAPage 0x1000) with err | l'
      · simp [hl, Except.map] at h
      · rw [hl] at h
        exact ⟨room, l', (Except.ok.inj h).symm, Or.inr ⟨hend, hl⟩⟩

theorem fixupPagesFrom_tags {aio : Bool} {room iObj ulRVAPage : ℕ} {objs : List LxObject}
    {l : List (ℕ × ℕ)} (h : fixupPagesFrom aio room iObj objs ulRVAPage = .ok l) :
    ∀ x ∈ l, iObj ≤ x.1 ∧ x.1 < iObj + objs.length := by
  induction l generalizing room iObj ulRVAPage objs with
  | nil => simp
  | cons x l ih =>
    cases objs with
    | nil => cases room <;> simp [fixupPagesFrom] at h
    | cons o rest =>
      obtain ⟨room', l', heq, ⟨-, hl⟩ | ⟨-, hl⟩⟩ := fixupPagesFrom_inv h
      · obtain ⟨rfl, rfl⟩ := List.cons.inj heq
        intro y hy
        rcases List.mem_cons.mp hy with rfl | hy
        · simp
        · have := ih hl y hy
          simp only [List.length_cons]
          omega
      · obtain ⟨rfl, rfl⟩ := List.cons.inj heq
        intro y hy
        rcases List.mem_cons.mp hy with rfl | hy
        · simp
        · exact ih hl y hy

theorem fixupPages_tags (aio : Bool) (iObj : ℕ) (objs : List LxObject) :
    ∀ x ∈ fixupPages aio iObj objs, iObj ≤ x.1 := by
  induction objs generalizing iObj with
  | nil => simp [fixupPages]
  | cons o rest ih =>
    intro x hx
    rcases List.mem_append.mp hx with hx | hx
    · obtain ⟨j, -, rfl⟩ := List.mem_map.mp hx
      exact Nat.le_refl _
    · exact Nat.le_of_succ_le (ih (iObj + 1) x hx)

/-- The pages of an object that is left at its own end: the loop left it behind
its last page, so it has one and ends where the loop could see it. -/
theorem own_end {aio : Bool} {o : LxObject} (rest : List LxObject)
    (hend : objectEnd aio o rest = add32 o.ulRVA o.cbVirtual)
    (hle : o.ulRVA + o.cbVirtual ≤ 0x100000000) {room iObj j k : ℕ} {tail : List (ℕ × ℕ)}
    (htail : ∀ x ∈ tail, iObj < x.1) (hjk : j + k = pagesFor o.cbVirtual)
    (h : fixupPagesFrom aio room iObj (o :: rest) (o.ulRVA + 0x1000 * j) =
      .ok ((List.range' j k).map (fun j => (iObj, o.ulRVA + 0x1000 * j)) ++ tail)) :
    0 < k ∧ (o.ulRVA + o.cbVirtual < 0x100000000 →
        o.ulRVA + 0x1000 * pagesFor o.cbVirtual < 0x100000000) ∧
      (o.ulRVA + o.cbVirtual = 0x100000000 → k = 1) ∧
      ∃ room', fixupPagesFrom aio room' (iObj + 1) rest (nextRVA 0 rest) = .ok tail := by
  induction k generalizing room j with
  | zero =>
    obtain ⟨room', l', heq, -⟩ := fixupPagesFrom_inv h
    simp only [List.range'_zero, List.map_nil, List.nil_append] at heq
    exact absurd (htail (iObj, o.ulRVA + 0x1000 * j) (by simp [heq])) (Nat.lt_irrefl _)
  | succ k ih =>
    obtain ⟨room', l', heq, hcase⟩ := fixupPagesFrom_inv h
    rw [List.range'_succ, List.map_cons, List.cons_append] at heq
    obtain ⟨-, rfl⟩ := List.cons.inj heq
    rw [hend] at hcase
    rcases hcase with ⟨hlast, hl⟩ | ⟨hmore, hl⟩
    · -- the loop went on with the next object, so this was the last page
      have hk : k = 0 := by
        by_contra hne
        obtain ⟨k', rfl⟩ := Nat.exists_eq_succ_of_ne_zero hne
        have := fixupPagesFrom_tags hl (iObj, o.ulRVA + 0x1000 * (j + 1))
          (by rw [List.range'_succ]; simp)
        simp only at this
        omega
      subst hk
      refine ⟨by omega, fun hlt => ?_, fun _ => rfl, room', by simpa using hl⟩
      rw [← hjk]
      unfold pagesFor at hjk
      unfold add32 u32 at hlast
      omega
    · cases k with
      | zero =>
        obtain ⟨room'', l'', heq', -⟩ := fixupPagesFrom_inv hl
        simp only [List.range'_zero, List.map_nil, List.nil_append] at heq'
        exact absurd (htail (iObj, add32 (o.ulRVA + 0x1000 * j) 0x1000) (by simp [heq']))
          (Nat.lt_irrefl _)
      | succ k =>
        have hroom : 0x1000 * (j + 1) < o.cbVirtual := by
          unfold pagesFor at hjk
          omega
        have hnext : add32 (o.ulRVA + 0x1000 * j) 0x1000 = o.ulRVA + 0x1000 * (j + 1) := by
          rw [add32_of_lt (by omega)]
          omega
        rw [hnext] at hl
        obtain ⟨-, hlow, -, hrest⟩ := ih (by omega) hl
        refine ⟨by omega, hlow, fun htop => ?_, hrest⟩
        exact absurd (by unfold add32 u32; omega) hmore

theorem spansFit_of_own {o : LxObject} (hle : o.ulRVA + o.cbVirtual ≤ 0x100000000)
    (hpos : 0 < pagesFor o.cbVirtual)
    (hlow : o.ulRVA + o.cbVirtual < 0x100000000 →
      o.ulRVA + 0x1000 * pagesFor o.cbVirtual < 0x100000000)
    (htop : o.ulRVA + o.cbVirtual = 0x100000000 → pagesFor o.cbVirtual = 1) :
    0 < o.cbVirtual ∧ TopFits o := by
  refine ⟨pagesFor_pos.mp hpos, ?_⟩
  rcases Nat.lt_or_eq_of_le hle with hlt | heq
  · exact Or.inl (hlow hlt)
  · have := htop heq
    refine Or.inr ⟨heq, ?_⟩
    unfold pagesFor at this
    omega

theorem wellPlaced_top {o : LxObject} {rest : List LxObject} (hw : WellPlaced (o :: rest)) :
    o.ulRVA + o.cbVirtual ≤ 0x100000000 := by
  obtain ⟨-, -, -, he, hw'⟩ := hw
  cases rest with
  | nil => exact he
  | cons next rest =>
    have := hw'.2.1
    simp only at he
    omega

/-- Objects of their own: the page loop lists exactly the pages of the image only
if all spans fit. -/
theorem spansFit_of_pages {objs : List LxObject} (hw : WellPlaced objs) {room iObj : ℕ}
    (h : fixupPagesFrom false room iObj objs (nextRVA 0 objs) =
      .ok (fixupPages false iObj objs)) : SpansFit false objs := by
  induction objs generalizing room iObj with
  | nil => trivial
  | cons o rest ih =>
    have hend : objectEnd false o rest = add32 o.ulRVA o.cbVirtual := by cases rest <;> rfl
    have hle := wellPlaced_top hw
    rw [fixupPages, spanPages, objectSpan_false] at h
    obtain ⟨hpos, hlow, htop, room', hrest⟩ := own_end (j := 0) _ hend hle
      (fun x hx => fixupPages_tags false (iObj + 1) rest x hx) (Nat.zero_add _) h
    have hown := spansFit_of_own hle hpos hlow htop
    cases rest with
    | nil => exact hown
    | cons next rest => exact ⟨by simpa using hown, ih hw.2.2.2.2 hrest⟩

/-- Pages that follow each other from `rva` on. -/
def Consecutive (l : List (ℕ × ℕ)) (rva : ℕ) : Prop :=
  l.map Prod.snd = List.range' rva l.length 0x1000

theorem consecutive_cons {x : ℕ × ℕ} {l : List (ℕ × ℕ)} {rva : ℕ}
    (h : Consecutive (x :: l) rva) : x.2 = rva ∧ Consecutive l (rva + 0x1000) := by
  simp only [Consecutive, List.map_cons, List.length_cons, List.range'_succ, List.cons.injEq] at h
  exact h

/-- In the one-object layout consecutive pages leave an object exactly where the
next one starts. -/
theorem next_start {o next : LxObject} {rest : List LxObject} {iObj j : ℕ}
    {l : List (ℕ × ℕ)} (hc : Consecutive l (o.ulRVA + 0x1000 * j)) {room : ℕ}
    (h : fixupPagesFrom true room iObj (o :: next :: rest) (o.ulRVA + 0x1000 * j) = .ok l) :
    o.ulRVA < next.ulRVA ∧ (next.ulRVA - o.ulRVA) % 0x1000 = 0 ∧
      ∃ room' l', fixupPagesFrom true room' (iObj + 1) (next :: rest) next.ulRVA = .ok l' ∧
        Consecutive l' next.ulRVA ∧
        l.length + j = (next.ulRVA - o.ulRVA) / 0x1000 + l'.length := by
  induction l generalizing room j with
  | nil =>
    obtain ⟨room', l', heq, -⟩ := fixupPagesFrom_inv h
    simp at heq
  | cons x l ih =>
    have hshift : o.ulRVA + 0x1000 * j + 0x1000 = o.ulRVA + 0x1000 * (j + 1) := by omega
    obtain ⟨room', l', heq, hcase⟩ := fixupPagesFrom_inv h
    obtain ⟨-, rfl⟩ := List.cons.inj heq
    obtain ⟨-, hc'⟩ := consecutive_cons hc
    rcases hcase with ⟨-, hl⟩ | ⟨-, hl⟩
    · obtain ⟨-, l'', rfl, -⟩ := fixupPagesFrom_inv hl
      have hstart : next.ulRVA = o.ulRVA + 0x1000 * j + 0x1000 := (consecutive_cons hc').1
      refine ⟨by omega, by omega, room', _, hl, hstart ▸ hc', ?_⟩
      simp only [List.length_cons]
      omega
    · obtain ⟨room'', l'', hl'', -⟩ := fixupPagesFrom_inv hl
      have hstart : add32 (o.ulRVA + 0x1000 * j) 0x1000 = o.ulRVA + 0x1000 * j + 0x1000 := by
        rw [hl''] at hc'
        exact (consecutive_cons hc').1
      rw [hstart, hshift] at hl
      rw [hshift] at hc'
      obtain ⟨h1, h2, room2, l2, hl2, hc2, hlen⟩ := ih hc' hl
      refine ⟨h1, h2, room2, l2, hl2, hc2, ?_⟩
      simp only [List.length_cons] at hlen ⊢
      omega

theorem spansFit_of_consecutive {o : LxObject} {rest : List LxObject}
    (hw : WellPlaced (o :: rest)) {room iObj : ℕ} {l : List (ℕ × ℕ)}
    (h : fixupPagesFrom true room iObj (o :: rest) o.ulRVA = .ok l) (hc : Consecutive l o.ulRVA)
    (hlen : l.length = getCountOfPages true (o :: rest)) : SpansFit true (o :: rest) := by
  induction rest generalizing o room iObj l with
  | nil =>
    have hle := wellPlaced_top hw
    have hne : l ≠ [] := by
      obtain ⟨-, l', rfl, -⟩ := fixupPagesFrom_inv h
      simp
    have hround : alignPage o.cbVirtual / 0x1000 = pagesFor o.cbVirtual := by
      by_cases hsmall : o.cbVirtual + 0xfff < 0x100000000
      · exact alignPage_div hsmall
      · have := alignPage_div_wrap hw.2.2.1 (by omega)
        simp only [getCountOfPages, objectSpan, this, Nat.add_zero] at hlen
        exact absurd (List.length_eq_zero_iff.mp hlen) hne
    simp only [getCountOfPages, objectSpan, Nat.add_zero, hround] at hlen
    have hl : l = (List.range' 0 (pagesFor o.cbVirtual)).map
        (fun j => (iObj, o.ulRVA + 0x1000 * j)) := by
      refine List.ext_getElem (by simp [hlen]) fun k hk hk' => ?_
      have htag := fixupPagesFrom_tags h l[k] (List.getElem_mem hk)
      have hrva : l[k].2 = o.ulRVA + 0x1000 * k := by
        have := congrArg (·[k]?) hc
        simpa [hk] using this
      simp only [List.getElem_map, List.getElem_range']
      refine Prod.ext ?_ ?_
      · simp only [List.length_cons, List.length_nil] at htag
        simp only
        omega
      · simpa using hrva
    rw [hl, ← List.append_nil (List.map _ _)] at h
    obtain ⟨hpos, hlow, htop, -⟩ := own_end (j := 0) [] rfl hle (by simp)
      (Nat.zero_add _) h
    exact spansFit_of_own hle hpos hlow htop
  | cons next rest ih =>
    obtain ⟨hlt, hmod, room', l', hl', hc', hlen'⟩ := next_start (j := 0) hc h
    refine ⟨by simp [hlt, hmod], ih hw.2.2.2.2 hl' hc' ?_⟩
    have hn : next.ulRVA < 0x100000000 := hw.2.2.2.2.2.1
    rw [getCountOfPages] at hlen
    simp only [objectSpan, if_true, sub32_of_le (Nat.le_of_lt hlt) hn] at hlen
    rw [alignPage_div (by omega)] at hlen
    unfold pagesFor at hlen
    omega

/-! ## What agreement says about the walks -/

theorem objectTableFrom_mem (ulImageBase ulPageMap : ℕ) (fAllRW : Bool) {objs : List LxObject}
    {o : LxObject} (ho : o ∈ objs) :
    ∃ e ∈ objectTableFrom ulImageBase fAllRW ulPageMap objs,
      e.o32Mapsize = alignPage o.cbVirtual / 0x1000 ∧ e.o32Size = o.cbVirtual := by
  induction objs generalizing ulPageMap with
  | nil => simp at ho
  | cons p rest ih =>
    rcases List.mem_cons.mp ho with rfl | ho
    · exact ⟨_, List.mem_cons_self, rfl, rfl⟩
    · obtain ⟨e, he, h1, h2⟩ := ih _ ho
      exact ⟨e, List.mem_cons_of_mem _ he, h1, h2⟩

theorem objectTableFrom_length (ulImageBase ulPageMap : ℕ) (fAllRW : Bool) (objs : List LxObject) :
    (objectTableFrom ulImageBase fAllRW ulPageMap objs).length = objs.length := by
  induction objs generalizing ulPageMap with
  | nil => rfl
  | cons o rest ih => simp [objectTableFrom, ih]

theorem objectTableFrom_row (ulImageBase ulPageMap : ℕ) (fAllRW : Bool) {pre rest : List LxObject}
    {o : LxObject}
    (hround : ∀ p ∈ pre ++ o :: rest, alignPage p.cbVirtual / 0x1000 = pagesFor p.cbVirtual) :
    ∃ e, (objectTableFrom ulImageBase fAllRW ulPageMap (pre ++ o :: rest))[pre.length]? = some e ∧
      e.o32Pagemap = ulPageMap + pagesBefore false pre (o :: rest) ∧
      e.o32Mapsize = spanPages false o rest := by
  have hlt : pre.length <
      (objectTableFrom ulImageBase fAllRW ulPageMap (pre ++ o :: rest)).length := by
    simp [objectTableFrom_length]
  refine ⟨_, List.getElem?_eq_getElem hlt, ?_⟩
  obtain ⟨pre', o', rest', heq, hlen, hpm, hms, -⟩ :=
    objectTableFrom_at hround (List.getElem?_eq_getElem hlt)
  obtain ⟨rfl, htl⟩ := List.append_inj heq hlen.symm
  obtain ⟨rfl, rfl⟩ := List.cons.inj htl
  exact ⟨hpm, hms⟩

theorem agree_round {ulImageBase e32Datapage : ℕ} {fAllRW : Bool} {objs : List LxObject}
    (h : TablesAgree ulImageBase e32Datapage fAllRW false objs) :
    ∀ o ∈ objs, alignPage o.cbVirtual / 0x1000 = pagesFor o.cbVirtual := by
  intro o ho
  obtain ⟨e, he, hms, hsz⟩ := objectTableFrom_mem ulImageBase 1 fAllRW ho
  rw [← hms, ← hsz]
  exact h.complete e (by rwa [makeObjectTable_false])

theorem count_of_round {objs : List LxObject}
    (hround : ∀ o ∈ objs, alignPage o.cbVirtual / 0x1000 = pagesFor o.cbVirtual) :
    getCountOfPages false objs = pagesBefore false objs [] := by
  induction objs with
  | nil => rfl
  | cons o rest ih =>
    simp only [getCountOfPages, pagesBefore, List.append_nil, spanPages, objectSpan_false,
      hround o List.mem_cons_self, ih fun p hp => hround p (List.mem_cons_of_mem _ hp)]

theorem fixupPages_total (aio : Bool) (iObj : ℕ) (objs : List LxObject) :
    (fixupPages aio iObj objs).length = pagesBefore aio objs [] := by
  obtain ⟨head, hlen, heq⟩ := fixupPages_split aio iObj objs []
  rw [List.append_nil] at heq
  rw [heq, fixupPages, List.append_nil, hlen]

/-- Objects of their own: the fixup page table lists exactly the pages of the
image. -/
theorem agree_fixupPages {ulImageBase e32Datapage : ℕ} {fAllRW : Bool} {objs : List LxObject}
    (h : TablesAgree ulImageBase e32Datapage fAllRW false objs) :
    makeFixupsPages false objs = .ok (fixupPages false 0 objs) := by
  have hround := agree_round h
  have hcount := count_of_round hround
  obtain ⟨tab, fix, -, hfix, -, hlen, hpages⟩ := h.pages
  rw [hfix]
  congr 1
  refine List.ext_getElem? fun k => ?_
  by_cases hk : k < pagesBefore false objs []
  · obtain ⟨pre, o, rest, j, rfl, hj, rfl⟩ := page_located hk
    obtain ⟨e, he, hpm, hms⟩ := objectTableFrom_row ulImageBase 1 fAllRW hround
    obtain ⟨m, iObj, o', off, -, ho', hpage, hplace, -⟩ :=
      hpages pre.length e (by rwa [makeObjectTable_false]) j (by rw [hms]; exact hj)
    simp only [PlacedAt, Bool.false_eq_true, if_false] at hplace
    obtain ⟨rfl, rfl⟩ := hplace
    obtain rfl : o = o' := by simpa using ho'
    rw [(tables_at _ hj).2, ← hpage, hpm, Nat.add_sub_cancel_left]
  · rw [List.getElem?_eq_none (by omega),
      List.getElem?_eq_none (by rw [fixupPages_total]; omega)]

theorem makeObjectTable_true (ulImageBase : ℕ) (fAllRW : Bool) (o : LxObject)
    (rest : List LxObject) :
    ∃ e, makeObjectTable ulImageBase fAllRW true (o :: rest) = [e] ∧ e.o32Pagemap = 1 ∧
      e.o32Mapsize = alignPage e.o32Size / 0x1000 ∧
      e.o32Size = add32 ((o :: rest).getLast (by simp)).ulRVA
        ((o :: rest).getLast (by simp)).cbVirtual :=
  ⟨_, rfl, rfl, rfl, rfl⟩

theorem agree_consecutive {ulImageBase e32Datapage : ℕ} {fAllRW : Bool} {o : LxObject}
    {rest : List LxObject} (h : TablesAgree ulImageBase e32Datapage fAllRW true (o :: rest)) :
    ∃ fix, makeFixupsPages true (o :: rest) = .ok fix ∧
      fix.length = getCountOfPages true (o :: rest) ∧ Consecutive fix o.ulRVA := by
  obtain ⟨tab, fix, -, hfix, -, hlen, hpages⟩ := h.pages
  obtain ⟨e, he, hpm, -, -⟩ := makeObjectTable_true ulImageBase fAllRW o rest
  have hsum := h.mapsizes
  rw [he] at hsum hpages
  simp only [List.map_cons, List.map_nil, List.sum_singleton] at hsum
  refine ⟨fix, hfix, hlen, List.ext_getElem (by simp) fun k hk _ => ?_⟩
  obtain ⟨m, iObj, o', off, -, ho', hpage, hplace, -⟩ :=
    hpages 0 e rfl k (by simpa [hsum, ← hlen] using hk)
  obtain ⟨first, o'', hfirst, ho'', hrva, -⟩ := hplace
  obtain rfl : o = first := by simpa using hfirst
  obtain rfl : o' = o'' := by simpa [ho'] using ho''
  rw [hpm, show (1 : ℕ) - 1 + k = k by omega] at hpage
  obtain ⟨hlt, hval⟩ := List.getElem?_eq_some_iff.mp hpage
  simp [hval, hrva]

theorem agree_spansFit {ulImageBase e32Datapage : ℕ} {fAllRW aio : Bool} {objs : List LxObject}
    (hw : WellPlaced objs) (h : TablesAgree ulImageBase e32Datapage fAllRW aio objs) :
    SpansFit aio objs := by
  cases objs with
  | nil => trivial
  | cons o rest =>
    cases aio with
    | false =>
      have hfix := agree_fixupPages h
      simp only [makeFixupsPages] at hfix
      split_ifs at hfix
      exact spansFit_of_pages hw hfix
    | true =>
      obtain ⟨fix, hfix, hlen, hcons⟩ := agree_consecutive h
      simp only [makeFixupsPages] at hfix
      split_ifs at hfix
      exact spansFit_of_consecutive hw hfix hcons hlen

theorem agree_oneObject {ulImageBase e32Datapage : ℕ} {fAllRW : Bool} {objs : List LxObject}
    (hw : WellPlaced objs) (h : TablesAgree ulImageBase e32Datapage fAllRW true objs) :
    OneObjectFits objs := by
  cases objs with
  | nil => trivial
  | cons o rest =>
    have hs := agree_spansFit hw h
    have hcount := oneObject_count hw hs
    have hpos := count_pos hw hs
    obtain ⟨e, he, -, hms, hsz⟩ := makeObjectTable_true ulImageBase fAllRW o rest
    have hsum := h.mapsizes
    have hcomplete := h.complete e (by simp [he])
    simp only [he, List.map_cons, List.map_nil, List.sum_singleton] at hsum
    have hlast : ((o :: rest).getLast (by simp)).ulRVA +
        ((o :: rest).getLast (by simp)).cbVirtual ≤ 0x100000000 := by
      have hmem := List.getLast_mem (show o :: rest ≠ [] by simp)
      have hall : ∀ objs, WellPlaced objs → ∀ p ∈ objs, p.ulRVA + p.cbVirtual ≤ 0x100000000 := by
        intro objs hw
        induction objs with
        | nil => simp
        | cons q tail ih =>
          intro p hp
          rcases List.mem_cons.mp hp with rfl | hp
          · exact wellPlaced_top hw
          · exact ih hw.2.2.2.2 p hp
      exact hall _ hw _ hmem
    simp only [OneObjectFits]
    set last := (o :: rest).getLast (by simp) with hdef
    have hsize : e.o32Size = last.ulRVA + last.cbVirtual := by
      rcases Nat.lt_or_eq_of_le hlast with hlt | heq
      · rw [hsz, add32_of_lt hlt]
      · have hzero : e.o32Size = 0 := by rw [hsz, add32, heq]; rfl
        rw [hzero] at hcomplete
        have : pagesFor 0 = 0 := rfl
        omega
    have hround : e.o32Size + 0xfff < 0x100000000 := by
      by_contra hge
      have := alignPage_div_wrap (hsz ▸ add32_lt _ _) (Nat.le_of_not_lt hge)
      omega
    refine ⟨hsize ▸ hround, ?_⟩
    rw [← hsize, ← hcomplete, hsum, hcount]

/-! ## The data offsets -/

theorem findObject_ge {offLXFile iObj i off : ℕ} {objs : List LxObject}
    (h : findObject offLXFile iObj objs = some (i, off)) : iObj ≤ i := by
  induction objs generalizing iObj with
  | nil => simp [findObject] at h
  | cons o rest ih =>
    rw [findObject] at h
    split_ifs at h
    · exact Nat.le_of_succ_le (ih h)
    · exact Nat.le_of_eq (Prod.mk.inj (Option.some.inj h)).1

/-- The bytes of an object that crosses the top of the file offsets are not found
at their offset. -/
theorem findObject_over {e32Datapage : ℕ} {pre : List LxObject} (rest : List LxObject) {o : LxObject}
    (hlow : e32Datapage + physBefore pre < 0x100000000) (hphys : o.cbPhysical < 0x100000000)
    (hover : 0x100000000 ≤ e32Datapage + physBefore pre + o.cbPhysical) (iObj off : ℕ) :
    findObject (e32Datapage + physBefore pre) iObj (setOffLXFile e32Datapage (pre ++ o :: rest)) ≠
      some (iObj + pre.length, off) := by
  induction pre generalizing e32Datapage iObj with
  | nil =>
    simp only [physBefore, List.map_nil, List.sum_nil, Nat.add_zero] at hlow hover ⊢
    intro h
    rw [List.nil_append, setOffLXFile, if_pos (by omega), findObject,
      if_pos (by unfold add32 u32; simp only; omega)] at h
    have := findObject_ge h
    simp only [List.length_nil] at this
    omega
  | cons p pre ih =>
    have hsum : e32Datapage + physBefore (p :: pre) = e32Datapage + p.cbPhysical + physBefore pre := by
      simp [physBefore, Nat.add_assoc]
    rw [hsum] at hlow hover ⊢
    rw [List.cons_append, findObject_skip (by omega) (by omega), List.length_cons,
      show iObj + (pre.length + 1) = iObj + 1 + pre.length by omega]
    exact ih hlow hover (iObj + 1)

theorem data_crosses {e32Datapage : ℕ} {objs : List LxObject} (hlow : e32Datapage < 0x100000000)
    (hover : ¬ DataFits e32Datapage objs) :
    ∃ pre o rest, objs = pre ++ o :: rest ∧ e32Datapage + physBefore pre < 0x100000000 ∧
      0x100000000 ≤ e32Datapage + physBefore pre + o.cbPhysical := by
  induction objs generalizing e32Datapage with
  | nil => simp [DataFits] at hover; omega
  | cons o rest ih =>
    by_cases hfit : e32Datapage + o.cbPhysical < 0x100000000
    · obtain ⟨pre, o', rest', rfl, h1, h2⟩ := ih hfit (by
        simpa [DataFits, Nat.add_assoc] using hover)
      refine ⟨o :: pre, o', rest', rfl, ?_, ?_⟩
      · simpa [physBefore, Nat.add_assoc] using h1
      · simpa [physBefore, Nat.add_assoc] using h2
    · exact ⟨[], o, rest, rfl, by simpa [physBefore] using hlow, by simpa [physBefore] using hfit⟩

/-- The page table and the bytes of the first page of a given object, from the
agreement of the tables. -/
theorem agree_firstPage {ulImageBase e32Datapage : ℕ} {fAllRW aio : Bool}
    {pre rest : List LxObject} {o : LxObject} (hw : WellPlaced (pre ++ o :: rest))
    (h : TablesAgree ulImageBase e32Datapage fAllRW aio (pre ++ o :: rest))
    (hpos : 0 < spanPages aio o rest) :
    pageByte e32Datapage (pre ++ o :: rest) (row aio o rest (physBefore pre) 0) 0 =
      objectByte pre.length o 0 := by
  have hs := agree_spansFit hw h
  obtain ⟨hrow, hpage⟩ := tables_at pre hpos
  obtain ⟨t, e, j, he, hj, hk⟩ : ∃ (t : ℕ) (e : O32Obj) (j : ℕ),
      (makeObjectTable ulImageBase fAllRW aio (pre ++ o :: rest))[t]? = some e ∧
      j < e.o32Mapsize ∧ e.o32Pagemap - 1 + j = pagesBefore aio pre (o :: rest) + 0 := by
    cases aio with
    | false =>
      obtain ⟨e, he, hpm, hms⟩ := objectTableFrom_row ulImageBase 1 fAllRW
        (agree_round h)
      exact ⟨pre.length, e, 0, by rwa [makeObjectTable_false], hms ▸ hpos, by omega⟩
    | true =>
      obtain ⟨p, tail, hsplit⟩ : ∃ p tail, pre ++ o :: rest = p :: tail := by cases pre <;> simp
      obtain ⟨e, he, hpm, -, -⟩ := makeObjectTable_true ulImageBase fAllRW p tail
      have hsum := h.mapsizes
      rw [hsplit, he] at hsum
      simp only [List.map_cons, List.map_nil, List.sum_singleton] at hsum
      refine ⟨0, e, pagesBefore true pre (o :: rest), by rw [hsplit, he]; rfl, ?_, by omega⟩
      have hlt := (List.getElem?_eq_some_iff.mp hrow).1
      rw [rows_length hw hs, hsplit] at hlt
      omega
  obtain ⟨tab, fix, htab, hfix, -, -, hpages⟩ := h.pages
  obtain ⟨m, iObj, o', off, hm, ho', hp, hplace, hbytes⟩ := hpages t e he j hj
  obtain rfl : rows aio 0 (pre ++ o :: rest) = tab := by
    rw [makeObjectPageTable_eq hw hs] at htab
    exact Option.some.inj htab
  obtain rfl : fixupPages aio 0 (pre ++ o :: rest) = fix := by
    rw [makeFixupsPages_eq hw hs] at hfix
    exact Except.ok.inj hfix
  rw [hk, hrow] at hm
  rw [hk, hpage] at hp
  obtain rfl := Option.some.inj hm
  obtain ⟨rfl, hrva⟩ := Prod.mk.inj (Option.some.inj hp)
  obtain rfl : o = o' := by simpa using ho'
  obtain rfl : off = 0 := by omega
  simpa using hbytes 0 (by decide)

theorem agree_dataFits {ulImageBase e32Datapage : ℕ} {fAllRW aio : Bool} {objs : List LxObject}
    (hw : WellPlaced objs) (hlow : e32Datapage < 0x100000000)
    (h : TablesAgree ulImageBase e32Datapage fAllRW aio objs) : DataFits e32Datapage objs := by
  by_contra hover
  obtain ⟨pre, o, rest, rfl, h1, h2⟩ := data_crosses hlow hover
  have hsuf : ∀ pre, WellPlaced (pre ++ o :: rest) → SpansFit aio (pre ++ o :: rest) →
      WellPlaced (o :: rest) ∧ SpansFit aio (o :: rest) := by
    intro pre hw hs
    induction pre with
    | nil => exact ⟨hw, hs⟩
    | cons p pre ih => exact ih hw.2.2.2.2 (spansFit_tail hs)
  obtain ⟨hwo, hso⟩ := hsuf pre hw (agree_spansFit hw h)
  obtain ⟨hpos, -, -⟩ := spansFit_span hwo hso
  have hphys : 0 < o.cbPhysical := by omega
  have hbyte := agree_firstPage hw h (pagesFor_pos.mpr hpos)
  have hoff : add32 (add32 e32Datapage (u32 (physBefore pre + 0))) 0 =
      e32Datapage + physBefore pre := by
    unfold add32 u32
    omega
  simp only [pageByte, row, Nat.mul_zero, Nat.zero_min, hphys, if_true, true_and, Nat.sub_zero,
    objectByte, hoff, show 0 < min o.cbPhysical 0x1000 by omega] at hbyte
  have hnot := findObject_over rest h1 (by have := hwo.1; have := hwo.2.2.1; omega) h2 0
  rw [Nat.zero_add] at hnot
  rcases hf : findObject (e32Datapage + physBefore pre) 0
    (setOffLXFile e32Datapage (pre ++ o :: rest)) with - | ⟨i, off⟩
  · simp [hf] at hbyte
  · rw [hf] at hbyte
    obtain ⟨rfl, rfl⟩ := PageByte.file.inj hbyte
    exact hnot 0 hf

/-- The object array needs nothing rounded or added over the top of its range, no
empty span, and in the one-object layout only whole pages between the objects. -/
def PagesFit (e32Datapage : ℕ) (aio : Bool) (paObjects : List LxObject) : Prop :=
  SpansFit aio paObjects ∧ (aio = true → OneObjectFits paObjects) ∧ DataFits e32Datapage paObjects

theorem tablesAgree_iff (ulImageBase e32Datapage : ℕ) (fAllRW aio : Bool)
    (paObjects : List LxObject) (hw : WellPlaced paObjects) (hlow : e32Datapage < 0x100000000) :
    TablesAgree ulImageBase e32Datapage fAllRW aio paObjects ↔
      PagesFit e32Datapage aio paObjects := by
  constructor
  · intro h
    refine ⟨agree_spansFit hw h, fun haio => ?_, agree_dataFits hw hlow h⟩
    subst haio
    exact agree_oneObject hw h
  · rintro ⟨hs, hone, hdata⟩
    exact agree_of_fits hw hs hone hdata

/-- A header and a section of two pages, the second one half in the file. -/
def twoObjects : List LxObject :=
  [{ ulRVA := 0, cbPhysical := 0x400, cbVirtual := 0x418 },
   { ulRVA := 0x1000, cbPhysical := 0x1200, cbVirtual := 0x2000, offPEFile := 0x400 }]

theorem twoObjects_agree : TablesAgree 0x400000 0x600 false false twoObjects :=
  (tablesAgree_iff 0x400000 0x600 false false twoObjects (by simp [WellPlaced, twoObjects])
    (by decide)).mpr ⟨by simp [SpansFit, TopFits, twoObjects, pagesFor], by simp,
      by simp [DataFits, twoObjects]⟩

/-- A header, a section without contents and a section behind it. -/
def emptySection : List LxObject :=
  [{ ulRVA := 0, cbPhysical := 0x400, cbVirtual := 0x418 },
   { ulRVA := 0x1000, cbPhysical := 0, cbVirtual := 0 },
   { ulRVA := 0x2000, cbPhysical := 0x200, cbVirtual := 0x1000, offPEFile := 0x400 }]

theorem emptySection_disagrees :
    WellPlaced emptySection ∧ ¬ TablesAgree 0x400000 0x600 false false emptySection := by
  have hw : WellPlaced emptySection := by simp [WellPlaced, emptySection]
  refine ⟨hw, fun h => ?_⟩
  have hs := agree_spansFit hw h
  simp [SpansFit, emptySection] at hs

end Odin32.LxPagesExact
