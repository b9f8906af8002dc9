import Odin32.LxFixupRun

/-! # Reading the fixups of all pages

The records of a run, laid out page by page with the crossing record of each page in front of
the next. Every page is read as what was added to it exactly when no import has a module
number of two bytes and an ordinal or an offset of more than two. -/

set_option autoImplicit false

namespace Odin32.LxFixupRecords
open ByteMemory ByteTable Word LxNames LxPages LxFixups LxEntries

/-- The pages with the records of their calls, the crossing ones repeated. -/
def layout : Option Record → List (List Record) → List (List Record)
  | _, [] => []
  | cross, rs :: pages => (cross.toList ++ rs) :: layout (rs.foldl crossing none) pages

def lastCrossing : Option Record → List (List Record) → Option Record
  | cross, [] => cross
  | _, rs :: pages => lastCrossing (rs.foldl crossing none) pages

abbrev Records (pe : PeImage) : List Added → List Record → Prop :=
  List.Forall₂ fun a r => a.record pe = some r

theorem runSteps_holds {pe : PeImage} {opt : ImportOptions} {steps : List Step}
    {st next : Fixups} {pages : List (List Record)} {page : List Record} {cross : Option Record}
    (holds : Holds st (pages ++ [page]) cross) (done : runSteps pe opt steps st = .ok next) :
    ∃ rs, Records pe (addedSteps pe opt steps st) rs ∧
      Holds next (pages ++ [page ++ rs]) (rs.foldl crossing cross) := by
  induction steps generalizing st page cross with
  | nil =>
    obtain rfl := Except.ok.inj done
    exact ⟨[], .nil, by simpa using holds⟩
  | cons s steps ih =>
    obtain ⟨mid, called, done⟩ := ok_of_bind done
    obtain ⟨r, made, held⟩ := Call.run_holds holds called
    obtain ⟨rs, records, held⟩ := ih held done
    refine ⟨r :: rs, ?_, by simpa using held⟩
    simp only [addedSteps, called]
    exact .cons made records

theorem runPages_holds {pe : PeImage} {opt : ImportOptions} {pages : List Page}
    {st next : Fixups} {front : List (List Record)} {cross : Option Record}
    (holds : Holds st front cross) (done : runPages pe opt pages st = .ok next) :
    ∃ rss, List.Forall₂ (Records pe) (addedPages pe opt pages st) rss ∧
      Holds next (front ++ layout cross rss) (lastCrossing cross rss) := by
  induction pages generalizing st front cross with
  | nil =>
    obtain rfl := Except.ok.inj done
    exact ⟨[], .nil, by simpa [layout, lastCrossing] using holds⟩
  | cons p pages ih =>
    obtain ⟨entered, entry, done⟩ := ok_of_bind done
    obtain ⟨mid, stepped, done⟩ := ok_of_bind done
    obtain ⟨rs, records, held⟩ := runSteps_holds (addPageFixupEntry_holds holds entry) stepped
    obtain ⟨rss, all, held⟩ := ih held done
    refine ⟨rs :: rss, ?_, by simpa [layout, lastCrossing] using held⟩
    simp only [addedPages, entry, stepped]
    exact .cons records all

/-- What is kept for the next page are the records of these fixups. -/
def Moved (pe : PeImage) (before : List Added) (cross : Option Record) : Prop :=
  List.Forall₂ (fun a r' => a.crosses = true ∧ ∃ r, a.record pe = some r ∧ r' = r.moved) before
    cross.toList

theorem moved_nil (pe : PeImage) : Moved pe [] none := .nil

theorem record_soff {pe : PeImage} {a : Added} {r : Record} (made : a.record pe = some r) :
    r.soff = a.source := by
  obtain ⟨source, referent⟩ := a
  cases referent with
  | address ulTarget =>
    simp only [Added.record, Option.map_eq_some_iff] at made
    obtain ⟨t, -, rfl⟩ := made
    rfl
  | ordinal m n => rw [← Option.some.inj made]
  | name m n => rw [← Option.some.inj made]

theorem moved_foldl {pe : PeImage} {page : List Added} {rs : List Record}
    (records : Records pe page rs) (before : List Added) {cross : Option Record}
    (moved : Moved pe before cross)
    (single : (before ++ page.filter Added.crosses).length ≤ 1) :
    Moved pe (before ++ page.filter Added.crosses) (rs.foldl crossing cross) := by
  induction records generalizing before cross with
  | nil => simpa using moved
  | @cons a r page rs made records ih =>
    have soff := record_soff made
    by_cases far : a.crosses = true
    · rw [List.filter_cons, if_pos far] at single ⊢
      obtain rfl : before = [] := by
        rw [List.length_append, List.length_cons] at single
        exact List.eq_nil_of_length_eq_zero (by omega)
      have kept : crossing cross r = some r.moved :=
        if_pos (by rw [soff]; exact of_decide_eq_true far)
      rw [List.foldl_cons, kept]
      exact ih [a] (.cons ⟨far, r, made, rfl⟩ .nil) single
    · rw [List.filter_cons, if_neg far] at single ⊢
      have kept : crossing cross r = cross := by
        refine if_neg fun h => far ?_
        rw [soff] at h
        exact decide_eq_true h
      rw [List.foldl_cons, kept]
      exact ih before moved single

theorem forall₂_means {pe : PeImage} {page : List (Added × ℕ)} {rs : List Record}
    (each : List.Forall₂ (fun p (r : Record) => Means pe p r.fixup ↔ p.1.Narrow) page rs) :
    List.Forall₂ (Means pe) page (rs.map Record.fixup) ↔ ∀ p ∈ page, p.1.Narrow := by
  induction each with
  | nil => simp
  | cons means _ ih => simp [List.forall₂_cons, means, ih]

theorem page_means {pe : PeImage} {before page : List Added} {cross : Option Record}
    {rs : List Record} (moved : Moved pe before cross) (records : Records pe page rs)
    (ranges : ∀ a ∈ before ++ page, a.InRange) :
    List.Forall₂ (Means pe) (before.map (·, 0x1000) ++ page.map (·, 0))
        ((cross.toList ++ rs).map Record.fixup) ↔
      ∀ a ∈ before ++ page, a.Narrow := by
  have front : List.Forall₂ (fun p (r : Record) => Means pe p r.fixup ↔ p.1.Narrow)
      (before.map (·, 0x1000)) cross.toList := by
    rw [List.forall₂_map_left_iff]
    refine (List.forall₂_and_left (p := Added.InRange) _ _ |>.2 ⟨fun a ha => ranges a
      (List.mem_append_left _ ha), moved⟩).imp ?_
    rintro a r' ⟨range, far, r, made, rfl⟩
    exact means_moved made range far
  have back : List.Forall₂ (fun p (r : Record) => Means pe p r.fixup ↔ p.1.Narrow)
      (page.map (·, 0)) rs := by
    rw [List.forall₂_map_left_iff]
    refine (List.forall₂_and_left (p := Added.InRange) _ _ |>.2 ⟨fun a ha => ranges a
      (List.mem_append_right _ ha), records⟩).imp ?_
    rintro a r ⟨range, made⟩
    exact means_page made range
  rw [forall₂_means (List.rel_append front back)]
  simp only [List.mem_append, List.mem_map, or_imp, forall_and, forall_exists_index, and_imp,
    forall_apply_eq_imp_iff₂]

theorem pages_mean {pe : PeImage} {added : List (List Added)} {rss : List (List Record)}
    (records : List.Forall₂ (Records pe) added rss) {before : List Added}
    {cross : Option Record} (moved : Moved pe before cross)
    (range_before : ∀ a ∈ before, a.InRange) (ranges : ∀ page ∈ added, ∀ a ∈ page, a.InRange)
    (single : ∀ page ∈ added, (page.filter Added.crosses).length ≤ 1) :
    List.Forall₂ (fun page (rs : List Record) => List.Forall₂ (Means pe) page (rs.map Record.fixup))
        (expected before added) (layout cross rss) ↔
      (added ≠ [] → ∀ a ∈ before, a.Narrow) ∧ ∀ page ∈ added, ∀ a ∈ page, a.Narrow := by
  induction records generalizing before cross with
  | nil => simp [expected, layout]
  | @cons page rs added rss here _ ih =>
    have range_page := ranges page List.mem_cons_self
    have kept : Moved pe (page.filter Added.crosses) (rs.foldl crossing none) :=
      moved_foldl here [] (moved_nil pe) (single page List.mem_cons_self)
    have next := ih kept
      (fun a ha => range_page a (List.mem_filter.1 ha).1)
      (fun p hp => ranges p (List.mem_cons_of_mem _ hp))
      (fun p hp => single p (List.mem_cons_of_mem _ hp))
    have now := page_means moved here fun a ha =>
      (List.mem_append.1 ha).elim (range_before a) (range_page a)
    rw [expected, layout, List.forall₂_cons, now, next]
    constructor
    · rintro ⟨narrow, -, rest⟩
      refine ⟨fun _ a ha => narrow a (List.mem_append_left _ ha), fun p hp => ?_⟩
      rcases List.mem_cons.1 hp with rfl | later
      · exact fun a ha => narrow a (List.mem_append_right _ ha)
      · exact rest p later
    · rintro ⟨first, rest⟩
      have mine := rest page List.mem_cons_self
      refine ⟨fun a ha => ?_, fun _ a ha => mine a (List.mem_filter.1 ha).1,
        fun p hp => rest p (List.mem_cons_of_mem _ hp)⟩
      rcases List.mem_append.1 ha with before | here
      · exact first (List.cons_ne_nil _ _) a before
      · exact mine a here

theorem decodes_iff_forall₂ {pe : PeImage} {st : Fixups} {added : List (List Added)}
    {pages : List (List Record)} (same : (expected [] added).length = pages.length)
    (read : ∀ k rs, pages[k]? = some rs → st.page k = some (rs.map Record.fixup)) :
    Decodes pe st added ↔ List.Forall₂ (fun page (rs : List Record) =>
      List.Forall₂ (Means pe) page (rs.map Record.fixup)) (expected [] added) pages := by
  rw [List.forall₂_iff_get]
  constructor
  · intro decodes
    refine ⟨same, fun k hk hk' => ?_⟩
    obtain ⟨fixups, at_k, means⟩ := decodes k _ (List.getElem?_eq_getElem hk)
    rw [read k _ (List.getElem?_eq_getElem hk')] at at_k
    rw [← Option.some.inj at_k] at means
    exact means
  · rintro ⟨-, means⟩ k page at_k
    obtain ⟨hk, rfl⟩ := List.getElem?_eq_some_iff.1 at_k
    exact ⟨_, read k _ (List.getElem?_eq_getElem (same ▸ hk)), means k hk (same ▸ hk)⟩

theorem length_expected (before : List Added) (added : List (List Added)) :
    (expected before added).length = added.length := by
  induction added generalizing before with
  | nil => rfl
  | cons page added ih => simp [expected, ih]

theorem length_layout (cross : Option Record) (rss : List (List Record)) :
    (layout cross rss).length = rss.length := by
  induction rss generalizing cross with
  | nil => rfl
  | cons rs rss ih => simp [layout, ih]

/-- Every page is read as what was added to it, whether the final entry is there or not,
exactly when no import is wide on both sides. -/
theorem makePages_decodes_iff (pe : PeImage) (opt : ImportOptions) (fresh : Mem)
    (names : NameTable) (pages : List Page) (final : Option Memory) (st : Fixups)
    (done : makePages pe opt pages final (.init fresh names) = .ok st)
    (ranges : ∀ page ∈ addedPages pe opt pages (.init fresh names), ∀ a ∈ page, a.InRange)
    (single : ∀ page ∈ addedPages pe opt pages (.init fresh names),
      (page.filter Added.crosses).length ≤ 1) :
    Decodes pe st (addedPages pe opt pages (.init fresh names)) ↔
      ∀ page ∈ addedPages pe opt pages (.init fresh names), ∀ a ∈ page, a.Narrow := by
  obtain ⟨ran, run, done⟩ := ok_of_bind done
  obtain ⟨rss, records, holds⟩ := runPages_holds (holds_init fresh names) run
  rw [List.nil_append] at holds
  have same_page : ∀ k, st.page k = ran.page k := by
    cases final with
    | none =>
      rw [← Except.ok.inj done]
      exact fun _ => rfl
    | some mem => exact addPageFixupEntry_last done
  have lengths : (expected [] (addedPages pe opt pages (.init fresh names))).length =
      (layout none rss).length := by
    rw [length_expected, length_layout, records.length_eq]
  have read : ∀ k rs, (layout none rss)[k]? = some rs → st.page k = some (rs.map Record.fixup) := by
    intro k rs at_k
    rw [same_page]
    exact page_eq holds at_k
  rw [decodes_iff_forall₂ lengths read, pages_mean records (moved_nil pe)
    (fun a ha => absurd ha List.not_mem_nil) ranges single]
  exact ⟨fun h => h.2, fun h => ⟨fun _ a ha => absurd ha List.not_mem_nil, h⟩⟩

/-- A header object and one object behind it. -/
def twoObjects : PeImage where
  fAllInOneObject := false
  paObjects := [{ ulRVA := 0, cbPhysical := 0x400, cbVirtual := 0x400 },
    { ulRVA := 0x1000, cbPhysical := 0x2000, cbVirtual := 0x2000 }]
  counted := by decide
  ulImageBase := 0x400000
  header := by decide
  words := by decide

def plenty : Memory := ⟨true, true, true⟩

def noNames : NameTable := ⟨.none fun _ => 0, 0⟩

/-- A page with a fixup of each kind, the last of which ends on the second page. -/
def twoPages : List Page :=
  [⟨plenty, [⟨.offset 0x10 0x401234, plenty⟩, ⟨.ordImport 0x20 300 7 none, plenty⟩,
      ⟨.nameImport 0xffe 2 ⟨[0x66, 0x6e], by decide⟩ none, plenty⟩]⟩,
    ⟨plenty, [⟨.offset 0x8 0x400000, plenty⟩]⟩]

theorem twoPages_decodes :
    match makePages twoObjects {} twoPages (some plenty) (.init (fun _ => 0) noNames) with
    | .error _ => False
    | .ok st => Decodes twoObjects st
        (addedPages twoObjects {} twoPages (.init (fun _ => 0) noNames)) := by
  have done : ∃ st, makePages twoObjects {} twoPages (some plenty)
      (.init (fun _ => 0) noNames) = .ok st := ⟨_, rfl⟩
  obtain ⟨st, done⟩ := done
  rw [done]
  exact (makePages_decodes_iff twoObjects {} (fun _ => 0) noNames twoPages (some plenty) st done
    (by decide) (by decide)).2 (by decide)

/-- An import by an ordinal above 65535 from module number 256. -/
def wideImport : List Page := [⟨plenty, [⟨.ordImport 0x10 256 0x10000 none, plenty⟩]⟩]

theorem wideImport_not_decodes :
    ¬∀ (pe : PeImage) (opt : ImportOptions) (fresh : Mem) (names : NameTable) (pages : List Page)
      (final : Option Memory) (st : Fixups),
      makePages pe opt pages final (.init fresh names) = .ok st →
      (∀ page ∈ addedPages pe opt pages (.init fresh names), ∀ a ∈ page, a.InRange) →
      (∀ page ∈ addedPages pe opt pages (.init fresh names),
        (page.filter Added.crosses).length ≤ 1) →
      Decodes pe st (addedPages pe opt pages (.init fresh names)) := by
  intro all
  have done : ∃ st, makePages twoObjects {} wideImport (some plenty)
      (.init (fun _ => 0) noNames) = .ok st ∧ st.page 0 = some [⟨0x10, .ordinal 256 0⟩] :=
    ⟨_, rfl, by decide⟩
  obtain ⟨st, done, read⟩ := done
  obtain ⟨fixups, at_page, means⟩ := all _ _ _ _ _ _ st done (by decide) (by decide) 0
    [(⟨0x10, .ordinal 256 0x10000⟩, 0)] (by decide)
  rw [read] at at_page
  rw [← Option.some.inj at_page] at means
  obtain ⟨⟨-, same⟩, -⟩ := List.forall₂_cons.1 means
  exact absurd same (by decide)

end Odin32.LxFixupRecords
