import Odin32.PeFixups
import Mathlib.Data.Set.Finite.Basic

/-! # Which relocation data the loader takes

`setFixups` ends, reads inside of the directory and modifies sections only, exactly when the
blocks and entries it comes to are well formed. -/

set_option autoImplicit false

namespace Odin32.PeFixups
open Odin32.Word Odin32.PageMap Odin32.PeSections Odin32.Walk

/-! ## The blocks and entries of a range -/

/-- A range of the image, and the directory in memory. -/
structure Range where
  virtAddress : ℕ
  size : ℕ

section Data
variable (L : Loader) (mem : Mem) (r : Range)

def Range.v : ℕ := sub32 r.virtAddress L.img.realBaseAddress

def Range.hi : ℕ := add32 (r.v L) (roundSize r.size)

/-- The block behind one that lies below the range. -/
def skipNext (prel : ℕ) : Option ℕ :=
  if prel < L.fixupsEnd ∧ ulong mem prel ≠ 0 ∧ ulong mem prel < r.v L then
    some (add32 prel (ulong mem (prel + 4)))
  else none

/-- The first loop comes to this place. -/
def Skips (prel : ℕ) : Prop := Relation.ReflTransGen (Step (skipNext L mem r)) L.pFixups prel

/-- A block whose entries are applied. -/
def InRange (prel : ℕ) : Prop :=
  prel < L.fixupsEnd ∧ ulong mem prel ≠ 0 ∧ ulong mem prel < r.hi L

/-- The entry crosses the end of the range. -/
def Crosses (prel i : ℕ) : Prop := r.hi L < fixupLimit mem prel i

/-- The entry crosses into a page that is in no section, which ends the function. -/
def Stops (prel i : ℕ) : Prop :=
  Crosses L mem r prel i ∧ L.img.findSectionByOS2Addr (newpage L mem prel i) = none

/-- The loop over the entries comes to entry `i`. -/
def Comes (prel i : ℕ) : Prop := i < count mem prel ∧ ∀ j < i, ¬ Stops L mem r prel j

/-- From a block of the range to the one behind it. -/
def FixStep (prel next : ℕ) : Prop :=
  InRange L mem r prel ∧ (∀ i < count mem prel, ¬ Stops L mem r prel i) ∧
    next = add32 prel (ulong mem (prel + 4))

/-- The second loop comes to this place. -/
def Meets (prel : ℕ) : Prop :=
  ∃ q, Skips L mem r q ∧ skipNext L mem r q = none ∧
    Relation.ReflTransGen (FixStep L mem r) q prel

end Data

/-! ## What is allowed -/

/-- An address of the directory. -/
def Loader.InDir (L : Loader) (b : ℕ) : Prop := L.pFixups ≤ b ∧ b < L.fixupsEnd

/-- So many bytes of the directory. -/
def Loader.Reads (L : Loader) (a len : ℕ) : Prop := L.pFixups ≤ a ∧ a + len ≤ L.fixupsEnd

/-- So many bytes of sections. -/
def Loader.Modifies (L : Loader) (a len : ℕ) : Prop :=
  ∀ b, a ≤ b → b < a + len → ∃ s ∈ L.img.sections, s.realvirtaddr ≤ b ∧ b < s.endAddr

def Loader.Allowed (L : Loader) : Event → Prop
  | .read a len => L.Reads a len
  | .fixup a len => L.Modifies a len

/-- The function ends, reads the directory only and modifies sections only. -/
def Behaves (L : Loader) (commitPage : ℕ → Mem → Mem) (mem : Mem) (r : Range) : Prop :=
  ∃ n done, setFixups L commitPage n mem r.virtAddress r.size = some done ∧
    ∀ e ∈ done.log, L.Allowed e

/-- The blocks and entries of the range are well formed. -/
structure Orderly (L : Loader) (mem : Mem) (r : Range) : Prop where
  /-- The headers of the blocks below the range. -/
  skipped : ∀ p, Skips L mem r p → p < L.fixupsEnd →
    L.Reads p 4 ∧ (skipNext L mem r p ≠ none → L.Reads (p + 4) 4)
  /-- Their sizes do not lead back to one of them. -/
  forward : ∀ p, Skips L mem r p → ¬ Relation.TransGen (Step (skipNext L mem r)) p p
  /-- The headers of the blocks from there on. -/
  blocks : ∀ p, Meets L mem r p → p < L.fixupsEnd →
    L.Reads p 4 ∧ (InRange L mem r p → L.Reads (p + 4) 4)
  entries : ∀ p i, Meets L mem r p → InRange L mem r p → Comes L mem r p i →
    L.Reads (p + 8 + 2 * i) 2
  targets : ∀ p i, Meets L mem r p → InRange L mem r p → Comes L mem r p i →
    ¬ Stops L mem r p i → L.Modifies (target L mem p i) (targetSize mem p i)

/-- No fixup of the range changes the directory. -/
def Untouched (L : Loader) (mem : Mem) (r : Range) : Prop :=
  ∀ p i, Meets L mem r p → InRange L mem r p → Comes L mem r p i → ¬ Stops L mem r p i →
    ∀ b, target L mem p i ≤ b → b < target L mem p i + targetSize mem p i → ¬ L.InDir b

/-- Two memories with one directory. -/
def SameDir (L : Loader) (mem mem' : Mem) : Prop := ∀ b, L.InDir b → mem' b = mem b

section Proofs
variable {L : Loader} {mem mem' : Mem} {r : Range} {commitPage : ℕ → Mem → Mem}

theorem ushort_same (same : SameDir L mem mem') {a : ℕ} (inside : L.Reads a 2) :
    ushort mem' a = ushort mem a := by
  obtain ⟨low, high⟩ := inside
  rw [ushort, ushort, same a ⟨low, by omega⟩, same (a + 1) ⟨by omega, by omega⟩]

theorem ulong_same (same : SameDir L mem mem') {a : ℕ} (inside : L.Reads a 4) :
    ulong mem' a = ulong mem a := by
  obtain ⟨low, high⟩ := inside
  rw [ulong, ulong, ushort_same same ⟨low, by omega⟩, ushort_same same ⟨by omega, by omega⟩]

theorem storeUshort_other {a n b : ℕ} (other : b < a ∨ a + 2 ≤ b) :
    storeUshort mem a n b = mem b := by
  rw [storeUshort, if_neg (by omega), if_neg (by omega)]

theorem storeUlong_other {a n b : ℕ} (other : b < a ∨ a + 4 ≤ b) :
    storeUlong mem a n b = mem b := by
  rw [storeUlong, storeUshort_other (by omega), storeUshort_other (by omega)]

theorem applyFixup_other (L : Loader) (mem : Mem) (type fixupaddr : ℕ) {b : ℕ}
    (other : ¬ (add32 fixupaddr L.img.realBaseAddress ≤ b ∧
      b < add32 fixupaddr L.img.realBaseAddress + fixupSize type)) :
    L.applyFixup mem type fixupaddr b = mem b := by
  rw [Loader.applyFixup]
  rw [fixupSize] at other
  by_cases highlow : type = relHighlow
  · rw [if_pos highlow] at other ⊢
    exact storeUlong_other (by omega)
  · rw [if_neg highlow] at other ⊢
    by_cases high : type = relHigh
    · rw [if_pos (.inl high)] at other
      rw [if_pos high]
      exact storeUshort_other (by omega)
    · rw [if_neg high]
      by_cases low : type = relLow
      · rw [if_pos (.inr low)] at other
        rw [if_pos low]
        exact storeUshort_other (by omega)
      · rw [if_neg low]

/-! ## Entries -/

/-- Where entry `i` is inside of the directory, it is the same in both memories. -/
structure SameEntry (L : Loader) (mem mem' : Mem) (p i : ℕ) : Prop where
  va : ulong mem' p = ulong mem p
  fix : typeOffset mem' p i = typeOffset mem p i

theorem same_entry (same : SameDir L mem mem') {p i : ℕ} (head : L.Reads p 4)
    (entry : L.Reads (p + 8 + 2 * i) 2) : SameEntry L mem mem' p i :=
  ⟨ulong_same same head, ushort_same same entry⟩

namespace SameEntry
variable {p i : ℕ} (same : SameEntry L mem mem' p i)

include same

theorem limit : fixupLimit mem' p i = fixupLimit mem p i := by
  rw [fixupLimit, fixupLimit, same.va, same.fix]

theorem page : newpage L mem' p i = newpage L mem p i := by
  rw [newpage, newpage, same.limit]

end SameEntry

/-- The fixups of the block leave the directory alone. -/
def CleanBlock (L : Loader) (mem : Mem) (r : Range) (p : ℕ) : Prop :=
  ∀ i, Comes L mem r p i → ¬ Stops L mem r p i →
    ∀ b, target L mem p i ≤ b → b < target L mem p i + targetSize mem p i → ¬ L.InDir b

/-- The entry stands in the directory and changes a section, unless it stops the function. -/
def GoodEntry (L : Loader) (mem : Mem) (r : Range) (p i : ℕ) : Prop :=
  L.Reads (p + 8 + 2 * i) 2 ∧
    (¬ Stops L mem r p i → L.Modifies (target L mem p i) (targetSize mem p i))

section Entries
variable {p i : ℕ} (keeps : ∀ page m, SameDir L m (commitPage page m))

theorem fixEntry_reads (hi : ℕ) : ∃ rest, (fixEntry L commitPage hi p i mem').log =
    .read (p + 8 + 2 * i) 2 :: .read p 4 :: rest := by
  rw [fixEntry]
  split_ifs
  · exact ⟨_, rfl⟩
  · exact ⟨_, rfl⟩
  · exact ⟨_, rfl⟩

theorem fixEntry_stops (same : SameEntry L mem mem' p i) (stops : Stops L mem r p i) :
    fixEntry L commitPage (r.hi L) p i mem' =
      ⟨false, mem', [.read (p + 8 + 2 * i) 2, .read p 4]⟩ := by
  obtain ⟨crosses, missing⟩ := stops
  rw [Crosses, ← same.limit] at crosses
  rw [fixEntry, if_pos crosses, same.page, missing]
  rfl

/-- What an entry does that does not stop the function, in the memory before or behind
`commitPage`. -/
theorem fixEntry_goes (same : SameEntry L mem mem' p i) (goes : ¬ Stops L mem r p i) :
    ∃ m, (m = mem' ∨ ∃ page, m = commitPage page mem') ∧
      fixEntry L commitPage (r.hi L) p i mem' =
        ⟨true, L.applyFixup m (typeOffset mem p i / 0x1000)
            (add32 (ulong m p) (typeOffset mem p i % 0x1000)),
          [.read (p + 8 + 2 * i) 2, .read p 4,
            .fixup (add32 (add32 (ulong m p) (typeOffset mem p i % 0x1000))
              L.img.realBaseAddress) (targetSize mem p i)]⟩ := by
  rw [fixEntry, same.fix]
  by_cases crosses : r.hi L < fixupLimit mem' p i
  · rw [if_pos crosses]
    have found : L.img.findSectionByOS2Addr (newpage L mem p i) ≠ none := by
      intro missing
      rw [same.limit] at crosses
      exact goes ⟨crosses, missing⟩
    obtain ⟨s, found⟩ := Option.ne_none_iff_exists'.mp found
    rw [same.page, found]
    exact ⟨_, .inr ⟨_, rfl⟩, rfl⟩
  · rw [if_neg crosses]
    exact ⟨_, .inl rfl, rfl⟩

include keeps in
theorem fixEntry_fixes (same : SameDir L mem mem') (head : L.Reads p 4)
    (entry : L.Reads (p + 8 + 2 * i) 2) (comes : Comes L mem r p i)
    (clean : CleanBlock L mem r p) (goes : ¬ Stops L mem r p i) :
    ∃ m, SameDir L mem m ∧ fixEntry L commitPage (r.hi L) p i mem' = ⟨true, m,
      [.read (p + 8 + 2 * i) 2, .read p 4, .fixup (target L mem p i) (targetSize mem p i)]⟩ := by
  obtain ⟨m, from', made⟩ := @fixEntry_goes L mem mem' r commitPage p i
    (same_entry same head entry) goes
  have sameM : SameDir L mem m := by
    intro b inside
    rcases from' with rfl | ⟨page, rfl⟩
    · exact same b inside
    · rw [keeps page mem' b inside, same b inside]
  have va := ulong_same sameM head
  refine ⟨_, fun b inside => ?_, by rw [made, va]; rfl⟩
  rw [applyFixup_other, sameM b inside]
  rintro ⟨low, high⟩
  exact clean i comes goes b low high inside

/-- The entries from `i` on are good. -/
def GoodFrom (L : Loader) (mem : Mem) (r : Range) (p i : ℕ) : Prop :=
  ∀ j, i ≤ j → Comes L mem r p j → GoodEntry L mem r p j

theorem goodFrom_iff (comes : Comes L mem r p i) :
    GoodFrom L mem r p i ↔
      GoodEntry L mem r p i ∧ (¬ Stops L mem r p i → GoodFrom L mem r p (i + 1)) := by
  constructor
  · intro good
    exact ⟨good i le_rfl comes, fun _ j low comesJ => good j (by omega) comesJ⟩
  · rintro ⟨here, later⟩ j low comesJ
    rcases Nat.eq_or_lt_of_le low with rfl | lt
    · exact here
    · exact later (comesJ.2 i lt) j lt comesJ

include keeps in
/-- The loop over the entries does what is allowed exactly when they are good; and then it ends
early exactly when one of them stops the function. -/
theorem fixEntries_spec (head : L.Reads p 4) (clean : CleanBlock L mem r p) (left : ℕ)
    (same : SameDir L mem mem') (all : i + left = count mem p)
    (before : ∀ j < i, ¬ Stops L mem r p j) :
    ((∀ e ∈ (fixEntries L commitPage (r.hi L) p left i mem').log, L.Allowed e) ↔
      GoodFrom L mem r p i) ∧
    (GoodFrom L mem r p i →
      ((fixEntries L commitPage (r.hi L) p left i mem').ok = true ↔
        ∀ j < count mem p, ¬ Stops L mem r p j) ∧
      ((fixEntries L commitPage (r.hi L) p left i mem').ok = true →
        SameDir L mem (fixEntries L commitPage (r.hi L) p left i mem').mem)) := by
  induction left generalizing i mem' with
  | zero =>
    refine ⟨iff_of_true (fun e inside => absurd inside List.not_mem_nil) fun j low comes => ?_,
      fun _ => ⟨iff_of_true rfl fun j inside => before j (by omega), fun _ => same⟩⟩
    have := comes.1
    omega
  | succ left ih =>
    have comes : Comes L mem r p i := ⟨by omega, before⟩
    have first := goodFrom_iff comes
    by_cases entry : L.Reads (p + 8 + 2 * i) 2
    · have sameI := same_entry same head entry
      by_cases stops : Stops L mem r p i
      · rw [fixEntries, fixEntry_stops sameI stops, first]
        dsimp only
        rw [if_neg Bool.false_ne_true]
        refine ⟨iff_of_true ?_ ⟨⟨entry, fun goes => absurd stops goes⟩, fun goes => absurd stops goes⟩,
          fun _ => ⟨iff_of_false Bool.false_ne_true fun none => none i comes.1 stops, ?_⟩⟩
        · rw [List.forall_mem_cons, List.forall_mem_singleton]
          exact ⟨entry, head⟩
        · intro ok
          cases ok
      · obtain ⟨m, sameM, made⟩ := fixEntry_fixes keeps same head entry comes clean stops
        have beforeNext : ∀ j < i + 1, ¬ Stops L mem r p j := by
          intro j inside
          rcases Nat.lt_succ_iff_lt_or_eq.mp inside with lt | rfl
          · exact before j lt
          · exact stops
        obtain ⟨allowed, rest⟩ := ih sameM (by omega) beforeNext
        rw [fixEntries, made, first]
        dsimp only
        rw [if_pos rfl]
        have logs : (∀ e ∈ [Event.read (p + 8 + 2 * i) 2, .read p 4,
              .fixup (target L mem p i) (targetSize mem p i)] ++
              (fixEntries L commitPage (r.hi L) p left (i + 1) m).log, L.Allowed e) ↔
            L.Modifies (target L mem p i) (targetSize mem p i) ∧ GoodFrom L mem r p (i + 1) := by
          rw [List.forall_mem_append, allowed, List.forall_mem_cons, List.forall_mem_cons,
            List.forall_mem_singleton]
          constructor
          · rintro ⟨⟨-, -, modifies⟩, good⟩
            exact ⟨modifies, good⟩
          · rintro ⟨modifies, good⟩
            exact ⟨⟨entry, head, modifies⟩, good⟩
        refine ⟨logs.trans ?_, fun good => rest (good.2 stops)⟩
        constructor
        · rintro ⟨modifies, good⟩
          exact ⟨⟨entry, fun _ => modifies⟩, fun _ => good⟩
        · rintro ⟨good, later⟩
          exact ⟨good.2 stops, later stops⟩
    · obtain ⟨tail, log⟩ := @fixEntry_reads L mem' commitPage p i (r.hi L)
      refine ⟨iff_of_false (fun allowed => entry ?_) fun good => entry (first.mp good).1.1,
        fun good => absurd (first.mp good).1.1 entry⟩
      refine allowed (.read (p + 8 + 2 * i) 2) ?_
      rw [fixEntries]
      dsimp only
      split_ifs
      · rw [log]
        exact List.mem_append_left _ (List.mem_cons_self ..)
      · rw [log]
        exact List.mem_cons_self ..

end Entries

/-! ## Blocks -/

/-- The header of the block stands in the directory, and its entries are good. -/
def GoodBlock (L : Loader) (mem : Mem) (r : Range) (p : ℕ) : Prop :=
  p < L.fixupsEnd → L.Reads p 4 ∧
    (InRange L mem r p → L.Reads (p + 4) 4 ∧ GoodFrom L mem r p 0)

section Blocks
variable {p n : ℕ} (keeps : ∀ page m, SameDir L m (commitPage page m))

theorem fixBlocks_beyond (hi : ℕ) (beyond : ¬ p < L.fixupsEnd) :
    fixBlocks L commitPage hi (n + 1) p mem' = some ⟨true, mem', []⟩ := by
  rw [fixBlocks, if_neg beyond]

theorem fixBlocks_above (same : SameDir L mem mem') (head : L.Reads p 4)
    (before : p < L.fixupsEnd) (above : ¬ InRange L mem r p) :
    fixBlocks L commitPage (r.hi L) (n + 1) p mem' = some ⟨true, mem', [.read p 4]⟩ := by
  rw [fixBlocks, if_pos before, ulong_same same head]
  exact if_neg fun range => above ⟨before, range⟩

theorem fixBlocks_range (same : SameDir L mem mem') (head : L.Reads p 4)
    (size : L.Reads (p + 4) 4) (range : InRange L mem r p) :
    fixBlocks L commitPage (r.hi L) (n + 1) p mem' =
      if (fixEntries L commitPage (r.hi L) p (count mem p) 0 mem').ok then
        (fixBlocks L commitPage (r.hi L) n
          (add32 p (ulong (fixEntries L commitPage (r.hi L) p (count mem p) 0 mem').mem (p + 4)))
          (fixEntries L commitPage (r.hi L) p (count mem p) 0 mem').mem).map fun later =>
            ⟨later.ok, later.mem, .read p 4 :: .read (p + 4) 4 ::
              (fixEntries L commitPage (r.hi L) p (count mem p) 0 mem').log ++
                .read (p + 4) 4 :: later.log⟩
      else some ⟨false, (fixEntries L commitPage (r.hi L) p (count mem p) 0 mem').mem,
        .read p 4 :: .read (p + 4) 4 ::
          (fixEntries L commitPage (r.hi L) p (count mem p) 0 mem').log⟩ := by
  have counts : count mem' p = count mem p := by
    rw [count, count, ulong_same same size]
  rw [fixBlocks, if_pos range.1, ulong_same same head, if_pos range.2, counts]

theorem second_mem {α : Type} (x y : α) (l : List α) : y ∈ x :: y :: l :=
  List.mem_cons_of_mem _ (List.mem_cons_self ..)

theorem third_mem {α : Type} {e : α} {l : List α} (inside : e ∈ l) (x y : α) : e ∈ x :: y :: l :=
  List.mem_cons_of_mem _ (List.mem_cons_of_mem _ inside)

theorem fixBlocks_reads {hi : ℕ} {done : Done}
    (ended : fixBlocks L commitPage hi (n + 1) p mem' = some done) (before : p < L.fixupsEnd) :
    .read p 4 ∈ done.log ∧
      (ulong mem' p ≠ 0 ∧ ulong mem' p < hi → .read (p + 4) 4 ∈ done.log) := by
  rw [fixBlocks, if_pos before] at ended
  generalize fixEntries L commitPage hi p (count mem' p) 0 mem' = d at ended
  by_cases range : ulong mem' p ≠ 0 ∧ ulong mem' p < hi
  · rw [if_pos range] at ended
    dsimp only at ended
    by_cases ok : d.ok = true
    · rw [if_pos ok] at ended
      obtain ⟨later, -, rfl⟩ := Option.map_eq_some_iff.mp ended
      exact ⟨List.mem_append_left _ (List.mem_cons_self ..),
        fun _ => List.mem_append_left _ (second_mem ..)⟩
    · rw [if_neg ok] at ended
      obtain rfl := Option.some.inj ended
      exact ⟨List.mem_cons_self .., fun _ => second_mem ..⟩
  · rw [if_neg range] at ended
    obtain rfl := Option.some.inj ended
    exact ⟨List.mem_cons_self .., fun inside => absurd inside range⟩

/-- The fixups of the blocks from here on leave the directory alone. -/
def CleanFrom (L : Loader) (mem : Mem) (r : Range) (p : ℕ) : Prop :=
  ∀ q, Relation.ReflTransGen (FixStep L mem r) p q → InRange L mem r q → CleanBlock L mem r q

include keeps in
theorem good_of_fixBlocks {done : Done} (same : SameDir L mem mem')
    (clean : CleanFrom L mem r p)
    (ended : fixBlocks L commitPage (r.hi L) n p mem' = some done)
    (allowed : ∀ e ∈ done.log, L.Allowed e) (q : ℕ)
    (reached : Relation.ReflTransGen (FixStep L mem r) p q) : GoodBlock L mem r q := by
  induction n generalizing p mem' done with
  | zero => cases ended
  | succ n ih =>
    by_cases before : p < L.fixupsEnd
    · obtain ⟨readHead, readSize⟩ := fixBlocks_reads ended before
      have head : L.Reads p 4 := allowed _ readHead
      by_cases range : InRange L mem r p
      · have size : L.Reads (p + 4) 4 := by
          refine allowed _ (readSize ?_)
          rw [ulong_same same head]
          exact range.2
        have block := clean p Relation.ReflTransGen.refl range
        obtain ⟨entries, rest⟩ := @fixEntries_spec L mem mem' r commitPage p 0 keeps head block
          (count mem p) same (by rw [Nat.zero_add]) fun j inside => absurd inside (Nat.not_lt_zero j)
        rw [fixBlocks_range same head size range] at ended
        generalize fixEntries L commitPage (r.hi L) p (count mem p) 0 mem' = d at entries rest ended
        split_ifs at ended with ok
        · obtain ⟨later, more, rfl⟩ := Option.map_eq_some_iff.mp ended
          have good : GoodFrom L mem r p 0 := entries.mp fun e inside => allowed e
            (List.mem_append_left _ (third_mem inside ..))
          obtain ⟨noStops, sameLater⟩ := rest good
          rcases Relation.ReflTransGen.cases_head reached with rfl | ⟨next, step, reached⟩
          · exact fun _ => ⟨head, fun _ => ⟨size, good⟩⟩
          · have place := step.2.2
            subst place
            rw [ulong_same (sameLater ok) size] at more
            refine ih (sameLater ok) (fun q' reached' => clean q' (.head step reached')) more
              (fun e inside => allowed e ?_) reached
            exact List.mem_append_right _ (List.mem_cons_of_mem _ inside)
        · cases ended
          have good : GoodFrom L mem r p 0 := entries.mp fun e inside => allowed e
            (third_mem inside ..)
          rcases Relation.ReflTransGen.cases_head reached with rfl | ⟨next, step, -⟩
          · exact fun _ => ⟨head, fun _ => ⟨size, good⟩⟩
          · exact absurd ((rest good).1.mpr step.2.1) ok
      · rcases Relation.ReflTransGen.cases_head reached with rfl | ⟨next, step, -⟩
        · exact fun _ => ⟨head, fun inside => absurd inside range⟩
        · exact absurd step.1 range
    · rcases Relation.ReflTransGen.cases_head reached with rfl | ⟨next, step, -⟩
      · exact fun inside => absurd inside before
      · exact absurd step.1.1 before

theorem count_eq (mem : Mem) (p : ℕ) : count mem p = sub32 (ulong mem (p + 4)) 8 / 2 := by
  rw [count]

theorem lt_next {S e : ℕ} (word : e < 0x100000000) (start : 0 < p)
    (size : p + 8 ≤ e) (inside : p + 8 + 2 * (sub32 S 8 / 2) ≤ e) :
    p < add32 p S ∨ add32 p S = 0 := by
  rw [sub32, u32] at inside
  rw [add32, u32]
  omega

theorem all_entries_inside (good : GoodFrom L mem r p 0) (size : L.Reads (p + 4) 4)
    (noStops : ∀ i < count mem p, ¬ Stops L mem r p i) :
    p + 8 + 2 * count mem p ≤ L.fixupsEnd := by
  cases counted : count mem p with
  | zero =>
    have := size.2
    omega
  | succ k =>
    have comes : Comes L mem r p k := by
      rw [Comes, counted]
      refine ⟨Nat.lt_succ_self k, fun j inside => noStops j ?_⟩
      rw [counted]
      omega
    have := (good k (Nat.zero_le k) comes).1.2
    omega

include keeps in
theorem fixBlocks_of_good (pFixups : L.pFixups ≠ 0) (left : ℕ) (bound : L.fixupsEnd - p ≤ left) (same : SameDir L mem mem')
    (clean : CleanFrom L mem r p)
    (good : ∀ q, Relation.ReflTransGen (FixStep L mem r) p q → GoodBlock L mem r q) :
    ∃ done, fixBlocks L commitPage (r.hi L) (left + 1) p mem' = some done ∧
      ∀ e ∈ done.log, L.Allowed e := by
  induction left generalizing p mem' with
  | zero =>
    refine ⟨_, fixBlocks_beyond (r.hi L) (by omega), fun e inside => ?_⟩
    exact absurd inside List.not_mem_nil
  | succ left ih =>
    by_cases before : p < L.fixupsEnd
    · obtain ⟨head, inRange⟩ := good p Relation.ReflTransGen.refl before
      by_cases range : InRange L mem r p
      · obtain ⟨size, entries⟩ := inRange range
        have block := clean p Relation.ReflTransGen.refl range
        obtain ⟨allowed, rest⟩ := @fixEntries_spec L mem mem' r commitPage p 0 keeps head block
          (count mem p) same (by rw [Nat.zero_add]) fun j inside => absurd inside (Nat.not_lt_zero j)
        obtain ⟨noStops, sameLater⟩ := rest entries
        have done := allowed.mpr entries
        rw [fixBlocks_range same head size range]
        generalize fixEntries L commitPage (r.hi L) p (count mem p) 0 mem' = d at *
        by_cases ok : d.ok = true
        · rw [if_pos ok, ulong_same (sameLater ok) size]
          have step : FixStep L mem r p (add32 p (ulong mem (p + 4))) := ⟨range, noStops.mp ok, rfl⟩
          have forward : p < add32 p (ulong mem (p + 4)) := by
            have inside := all_entries_inside entries size (noStops.mp ok)
            rw [count_eq] at inside
            have start := head.1
            have high := size.2
            rcases lt_next (add32_lt L.pFixups L.dwFixupSize) (by omega) high inside with lt | zero
            · exact lt
            · have first := good _ (.single step)
              rw [zero] at first
              have low := (first (by omega)).1.1
              omega
          obtain ⟨later, ended, laterAllowed⟩ := ih (by omega) (sameLater ok)
            (fun q reached => clean q (.head step reached))
            fun q reached => good q (.head step reached)
          refine ⟨_, by rw [ended]; rfl, ?_⟩
          rw [List.forall_mem_append, List.forall_mem_cons, List.forall_mem_cons,
            List.forall_mem_cons]
          exact ⟨⟨head, size, done⟩, size, laterAllowed⟩
        · rw [if_neg ok]
          refine ⟨_, rfl, ?_⟩
          rw [List.forall_mem_cons, List.forall_mem_cons]
          exact ⟨head, size, done⟩
      · refine ⟨_, fixBlocks_above same head before range, ?_⟩
        rw [List.forall_mem_singleton]
        exact head
    · refine ⟨_, fixBlocks_beyond (r.hi L) before, fun e inside => ?_⟩
      exact absurd inside List.not_mem_nil

end Blocks

/-! ## The first loop -/

/-- The header of a block below the range. -/
def GoodHeader (L : Loader) (mem : Mem) (r : Range) (p : ℕ) : Prop :=
  p < L.fixupsEnd → L.Reads p 4 ∧ (skipNext L mem r p ≠ none → L.Reads (p + 4) 4)

section Skip
variable {p q n : ℕ} {log : List Event}

theorem skipNext_some {next : ℕ} (link : skipNext L mem r p = some next) :
    (p < L.fixupsEnd ∧ ulong mem p ≠ 0 ∧ ulong mem p < r.v L) ∧
      next = add32 p (ulong mem (p + 4)) := by
  rw [skipNext] at link
  split_ifs at link with below
  exact ⟨below, (Option.some.inj link).symm⟩

theorem skipNext_none (stop : skipNext L mem r p = none) :
    ¬ (p < L.fixupsEnd ∧ ulong mem p ≠ 0 ∧ ulong mem p < r.v L) := by
  intro below
  rw [skipNext, if_pos below] at stop
  cases stop

theorem skipBlocks_next (same : SameDir L mem mem') (head : L.Reads p 4) (size : L.Reads (p + 4) 4)
    {next : ℕ} (link : skipNext L mem r p = some next) :
    skipBlocks L (r.v L) mem' (n + 1) p = (skipBlocks L (r.v L) mem' n next).map fun later =>
      (later.1, .read p 4 :: .read (p + 4) 4 :: later.2) := by
  obtain ⟨⟨before, below⟩, rfl⟩ := skipNext_some link
  rw [skipBlocks, if_pos before, ulong_same same head, if_pos below, ulong_same same size]

theorem skipBlocks_stop (same : SameDir L mem mem') (good : GoodHeader L mem r p)
    (stop : skipNext L mem r p = none) :
    ∃ log, skipBlocks L (r.v L) mem' (n + 1) p = some (p, log) ∧ ∀ e ∈ log, L.Allowed e := by
  rw [skipBlocks]
  by_cases before : p < L.fixupsEnd
  · have head := (good before).1
    rw [if_pos before, ulong_same same head, if_neg fun below => skipNext_none stop ⟨before, below⟩]
    refine ⟨_, rfl, ?_⟩
    rw [List.forall_mem_singleton]
    exact head
  · rw [if_neg before]
    exact ⟨_, rfl, fun e inside => absurd inside List.not_mem_nil⟩

theorem skipBlocks_of_path (same : SameDir L mem mem') {l : List ℕ}
    (walked : path (skipNext L mem r) n p = some l)
    (good : ∀ q, Relation.ReflTransGen (Step (skipNext L mem r)) p q → GoodHeader L mem r q) :
    ∃ q log, skipBlocks L (r.v L) mem' n p = some (q, log) ∧ (∀ e ∈ log, L.Allowed e) ∧
      Relation.ReflTransGen (Step (skipNext L mem r)) p q ∧ skipNext L mem r q = none := by
  induction n generalizing p l with
  | zero => cases walked
  | succ n ih =>
    rcases path_cases walked with ⟨stop, -⟩ | ⟨next, rest, link, walked, -⟩
    · obtain ⟨log, ended, allowed⟩ := skipBlocks_stop same (good p .refl) stop
      exact ⟨p, log, ended, allowed, .refl, stop⟩
    · obtain ⟨q, log, ended, allowed, reached, stop⟩ :=
        ih walked fun q reached => good q (.head link reached)
      obtain ⟨head, size⟩ := good p .refl (skipNext_some link).1.1
      have size := size (by rw [link]; exact Option.some_ne_none next)
      refine ⟨q, _, by rw [skipBlocks_next same head size link, ended]; rfl, ?_,
        .head link reached, stop⟩
      rw [List.forall_mem_cons, List.forall_mem_cons]
      exact ⟨head, size, allowed⟩

theorem skipBlocks_head (ended : skipBlocks L (r.v L) mem' (n + 1) p = some (q, log))
    (before : p < L.fixupsEnd) : .read p 4 ∈ log := by
  rw [skipBlocks, if_pos before] at ended
  split_ifs at ended
  · obtain ⟨later, -, same⟩ := Option.map_eq_some_iff.mp ended
    cases same
    exact List.mem_cons_self ..
  · cases ended
    exact List.mem_cons_self ..

theorem skipBlocks_size (ended : skipBlocks L (r.v L) mem' (n + 1) p = some (q, log))
    (before : p < L.fixupsEnd) (below : ulong mem' p ≠ 0 ∧ ulong mem' p < r.v L) :
    .read (p + 4) 4 ∈ log := by
  rw [skipBlocks, if_pos before, if_pos below] at ended
  obtain ⟨later, -, same⟩ := Option.map_eq_some_iff.mp ended
  cases same
  exact second_mem ..

/-- If the first loop ends and does what is allowed, its walk ends over good headers, at the place
that it returns. -/
theorem path_of_skipBlocks (same : SameDir L mem mem')
    (ended : skipBlocks L (r.v L) mem' n p = some (q, log)) (allowed : ∀ e ∈ log, L.Allowed e) :
    (∃ l, path (skipNext L mem r) n p = some l) ∧
    ∀ p', Relation.ReflTransGen (Step (skipNext L mem r)) p p' →
      GoodHeader L mem r p' ∧ (skipNext L mem r p' = none → p' = q) := by
  induction n generalizing p q log with
  | zero => cases ended
  | succ n ih =>
    cases link : skipNext L mem r p with
    | none =>
      refine ⟨⟨_, path_end link⟩, fun p' reached => ?_⟩
      rcases Relation.ReflTransGen.cases_head reached with rfl | ⟨next, step, -⟩
      · refine ⟨fun before => ⟨allowed _ (skipBlocks_head ended before),
          fun goes => absurd link goes⟩, fun _ => ?_⟩
        have good : GoodHeader L mem r p := fun before =>
          ⟨allowed _ (skipBlocks_head ended before), fun goes => absurd link goes⟩
        obtain ⟨log', stopped, -⟩ := @skipBlocks_stop L mem mem' r p n same good link
        rw [ended] at stopped
        cases stopped
        rfl
      · rw [Step, link] at step
        cases step
    | some next =>
      obtain ⟨⟨before, below⟩, -⟩ := skipNext_some link
      have head : L.Reads p 4 := allowed _ (skipBlocks_head ended before)
      have size : L.Reads (p + 4) 4 := by
        refine allowed _ (skipBlocks_size ended before ?_)
        rw [ulong_same same head]
        exact below
      rw [skipBlocks_next same head size link] at ended
      obtain ⟨later, more, made⟩ := Option.map_eq_some_iff.mp ended
      cases made
      obtain ⟨⟨l, walked⟩, rest⟩ := ih more fun e inside => allowed e (third_mem inside ..)
      refine ⟨⟨p :: l, by rw [path_link link, walked]; rfl⟩, fun p' reached => ?_⟩
      rcases Relation.ReflTransGen.cases_head reached with rfl | ⟨next', step, reached⟩
      · refine ⟨fun _ => ⟨head, fun _ => size⟩, fun stop => ?_⟩
        rw [link] at stop
        cases stop
      · rw [Step, link] at step
        cases step
        exact rest p' reached

end Skip

/-! ## One range -/

/-- Relocations are applied at all. -/
def Loader.Active (L : Loader) : Prop := L.relocates = true ∧ L.pFixups ≠ 0

section OneRange
variable (keeps : ∀ page m, SameDir L m (commitPage page m))

theorem setFixups_active (active : L.Active) (n : ℕ) (mem : Mem) (r : Range) :
    setFixups L commitPage n mem r.virtAddress r.size =
      (skipBlocks L (r.v L) mem n L.pFixups).bind fun skipped =>
        (fixBlocks L commitPage (r.hi L) n skipped.1 mem).map fun done =>
          ⟨done.ok, done.mem, skipped.2 ++ done.log⟩ := by
  rw [setFixups, if_pos active.1]
  dsimp only
  rw [if_pos active.2]
  rfl

theorem behaves_of_not_active (idle : ¬ L.Active) (mem : Mem) (r : Range) :
    Behaves L commitPage mem r := by
  refine ⟨0, ?_⟩
  rw [setFixups]
  by_cases relocates : L.relocates = true
  · have null : ¬ L.pFixups ≠ 0 := fun some => idle ⟨relocates, some⟩
    rw [if_pos relocates]
    dsimp only
    rw [if_neg null]
    exact ⟨_, rfl, fun e inside => absurd inside List.not_mem_nil⟩
  · rw [if_neg relocates]
    exact ⟨_, rfl, fun e inside => absurd inside List.not_mem_nil⟩

theorem clean_of_untouched (untouched : Untouched L mem r) {q : ℕ} (skips : Skips L mem r q)
    (stop : skipNext L mem r q = none) : CleanFrom L mem r q :=
  fun p reached range i comes goes => untouched p i ⟨q, skips, stop, reached⟩ range comes goes

theorem Orderly.goodBlock (orderly : Orderly L mem r) {p : ℕ} (meets : Meets L mem r p) :
    GoodBlock L mem r p := by
  intro before
  obtain ⟨head, size⟩ := orderly.blocks p meets before
  refine ⟨head, fun range => ⟨size range, fun i _ comes => ?_⟩⟩
  exact ⟨orderly.entries p i meets range comes, orderly.targets p i meets range comes⟩

theorem skips_finite : {p | Relation.ReflTransGen (Step (skipNext L mem r)) L.pFixups p ∧
    skipNext L mem r p ≠ none}.Finite := by
  refine (Set.finite_lt_nat L.fixupsEnd).subset ?_
  rintro p ⟨-, goes⟩
  obtain ⟨next, link⟩ := Option.ne_none_iff_exists'.mp goes
  exact (skipNext_some link).1.1

theorem path_more {next : ℕ → Option ℕ} {p n : ℕ} {l : List ℕ}
    (walked : path next n p = some l) (k : ℕ) : path next (n + k) p = some l := by
  induction n generalizing p l with
  | zero => cases walked
  | succ n ih =>
    rw [Nat.add_right_comm]
    rcases path_cases walked with ⟨stop, rfl⟩ | ⟨b, rest, link, more, rfl⟩
    · exact path_end stop
    · rw [path_link link, ih more]
      rfl

include keeps in
theorem behaves_of_orderly (active : L.Active) (same : SameDir L mem mem')
    (untouched : Untouched L mem r) (orderly : Orderly L mem r) :
    Behaves L commitPage mem' r := by
  obtain ⟨k, l, walked⟩ := exists_path skips_finite orderly.forward
  obtain ⟨q, log, skipped, allowed, skips, stop⟩ := skipBlocks_of_path same
    (path_more walked (L.fixupsEnd + 1)) fun p reached => orderly.skipped p reached
  obtain ⟨done, fixed, fixedAllowed⟩ := fixBlocks_of_good keeps active.2 (k + L.fixupsEnd)
    (show L.fixupsEnd - q ≤ k + L.fixupsEnd by omega) same
    (clean_of_untouched untouched skips stop)
    fun p reached => orderly.goodBlock ⟨q, skips, stop, reached⟩
  refine ⟨k + (L.fixupsEnd + 1), ⟨done.ok, done.mem, log ++ done.log⟩, ?_, ?_⟩
  · rw [setFixups_active active, skipped, Option.bind_some, ← Nat.add_assoc, fixed]
    rfl
  · rw [List.forall_mem_append]
    exact ⟨allowed, fixedAllowed⟩

include keeps in
theorem orderly_of_behaves (active : L.Active) (same : SameDir L mem mem')
    (untouched : Untouched L mem r) (behaves : Behaves L commitPage mem' r) :
    Orderly L mem r := by
  obtain ⟨n, done, ended, allowed⟩ := behaves
  rw [setFixups_active active] at ended
  obtain ⟨⟨q, log⟩, skipped, rest⟩ := Option.bind_eq_some_iff.mp ended
  obtain ⟨fixed, blocks, rfl⟩ := Option.map_eq_some_iff.mp rest
  rw [List.forall_mem_append] at allowed
  obtain ⟨⟨l, walked⟩, headers⟩ := path_of_skipBlocks same skipped allowed.1
  have meets : ∀ p, Meets L mem r p → GoodBlock L mem r p := by
    rintro p ⟨q', skips, stop, reached⟩
    obtain rfl := (headers q' skips).2 stop
    exact good_of_fixBlocks keeps same (clean_of_untouched untouched skips stop) blocks allowed.2
      p reached
  refine ⟨fun p skips => (headers p skips).1, fun p skips => acyclic_of_path walked skips,
    fun p met before => ?_, fun p i met range comes => ?_, fun p i met range comes goes => ?_⟩
  · obtain ⟨head, rest⟩ := meets p met before
    exact ⟨head, fun range => (rest range).1⟩
  · exact (((meets p met range.1).2 range).2 i (Nat.zero_le i) comes).1
  · exact (((meets p met range.1).2 range).2 i (Nat.zero_le i) comes).2 goes

end OneRange

/-! ## Fixups that load another page -/

/-- From a range to the page that one of its fixups loads; `loads` says for which pages
`commitPage` comes to `setFixups`. -/
def Leads (L : Loader) (loads : ℕ → Bool) (mem : Mem) (r r' : Range) : Prop :=
  L.Active ∧ ∃ p i s, Meets L mem r p ∧ InRange L mem r p ∧ Comes L mem r p i ∧
    Crosses L mem r p i ∧ L.img.findSectionByOS2Addr (newpage L mem p i) = some s ∧
    loads (newpage L mem p i) = true ∧ r' = ⟨newpage L mem p i, 0x1000⟩

/-- The sections lie behind the base and in the address space of a process. -/
def Loader.Placed (L : Loader) : Prop :=
  ∀ s ∈ L.img.sections, L.img.realBaseAddress ≤ s.realvirtaddr ∧
    s.realvirtaddr + s.virtualsize ≤ 0xc0000000

/-- A page of the image. -/
def Loader.IsPage (L : Loader) (r : Range) : Prop :=
  r.size = 0x1000 ∧ r.virtAddress % 0x1000 = 0 ∧ L.img.realBaseAddress ≤ r.virtAddress ∧
    r.virtAddress < 0xc0000000

theorem Leads.isPage {loads : ℕ → Bool} {r r' : Range} (placed : L.Placed)
    (leads : Leads L loads mem r r') : L.IsPage r' := by
  obtain ⟨-, p, i, s, -, -, -, -, found, -, rfl⟩ := leads
  have inside := List.find?_some found
  obtain ⟨low, high⟩ := placed s (List.mem_of_find?_eq_some found)
  simp only [Bool.and_eq_true, decide_eq_true_eq] at inside
  have endAddr : s.endAddr = s.realvirtaddr + s.virtualsize := add32_of_lt (by omega)
  rw [endAddr] at inside
  refine ⟨rfl, Nat.mul_mod_left _ _, ?_, ?_⟩
  · show L.img.realBaseAddress ≤ newpage L mem p i
    omega
  · show newpage L mem p i < 0xc0000000
    omega

theorem fixupLimit_bound {hi p i : ℕ} (below : ulong mem p < hi) (room : hi + 0x1003 < 0x100000000) :
    fixupLimit mem p i < hi + 0x1003 := by
  have size : fixupSize (typeOffset mem p i / 0x1000) ≤ 4 := by
    rw [fixupSize]
    split_ifs
    · exact le_rfl
    · omega
    · omega
  have offset := Nat.mod_lt (typeOffset mem p i) (show 0 < 0x1000 by decide)
  rw [fixupLimit, add32_of_lt (by omega)]
  omega

theorem Leads.lt {loads : ℕ → Bool} {r r' : Range} (page : L.IsPage r)
    (leads : Leads L loads mem r r') : r.virtAddress < r'.virtAddress := by
  obtain ⟨size, aligned, low, high⟩ := page
  obtain ⟨-, p, i, s, -, range, -, crosses, -, -, rfl⟩ := leads
  have round : roundSize r.size = 0x1000 := by
    rw [size]
    decide
  have hi : r.hi L = r.virtAddress - L.img.realBaseAddress + 0x1000 := by
    rw [Range.hi, Range.v, round, sub32_of_le low (by omega), add32_of_lt (by omega)]
  have limit := @fixupLimit_bound mem (r.hi L) p i range.2.2 (by omega)
  rw [Crosses, hi] at crosses
  rw [hi] at limit
  show r.virtAddress < newpage L mem p i
  rw [newpage, add32_of_lt (by omega)]
  omega

theorem page_acc {loads : ℕ → Bool} (placed : L.Placed) (mem : Mem) {r : Range}
    (page : L.IsPage r) : Acc (fun r' r => Leads L loads mem r r') r := by
  have bound : ∀ n (r : Range), L.IsPage r → 0xc0000000 - r.virtAddress ≤ n →
      Acc (fun r' r => Leads L loads mem r r') r := by
    intro n
    induction n with
    | zero =>
      intro r page small
      have := page.2.2.2
      omega
    | succ n ih =>
      intro r page small
      refine Acc.intro r fun r' leads => ih r' (leads.isPage placed) ?_
      have := leads.lt page
      have := page.2.2.2
      omega
  exact bound _ r page le_rfl

/-! ## The main theorem -/

/-- The loader goes over the relocations of the range, and of the pages that its fixups load, and
stays inside: each of these ranges ends, reads the directory only and modifies sections only, and
none of them leads to another for ever. -/
structure Contained (L : Loader) (commitPage : ℕ → Mem → Mem) (loads : ℕ → Bool) (mem : Mem)
    (range : Range) : Prop where
  behaves : ∀ r, Relation.ReflTransGen (Leads L loads mem) range r →
    ∀ mem', SameDir L mem mem' → Behaves L commitPage mem' r
  nested : Acc (fun r' r => Leads L loads mem r r') range

/-- An image at 0x500000 that was linked for 0x400000, with one section. -/
def movedImage : Loader where
  img := ⟨0x500000, 0, [⟨1, 0x400, 0x20000, 0x501000, 0x20000, pagRead⟩]⟩
  originalBaseAddress := 0x400000
  relocsStripped := false
  pFixups := 0x510000
  dwFixupSize := 16

theorem movedImage_placed : movedImage.Placed := by
  intro s inside
  obtain rfl := List.mem_singleton.mp inside
  exact ⟨of_decide_eq_true rfl, of_decide_eq_true rfl⟩

def zeros : Mem := fun _ => 0

theorem ulong_zeros (p : ℕ) : ulong zeros p = 0 := by
  rw [ulong, ushort, ushort]
  rfl

theorem zeros_not_inRange (r : Range) (p : ℕ) : ¬ InRange movedImage zeros r p :=
  fun range => range.2.1 (ulong_zeros p)

theorem zeros_stop (r : Range) (p : ℕ) : skipNext movedImage zeros r p = none :=
  if_neg fun below => below.2.1 (ulong_zeros p)

theorem zeros_skips {r : Range} {p : ℕ} (skips : Skips movedImage zeros r p) : p = 0x510000 := by
  rcases Relation.ReflTransGen.cases_head skips with rfl | ⟨next, step, -⟩
  · rfl
  · rw [Step, zeros_stop] at step
    cases step

theorem zeros_meets {r : Range} {p : ℕ} (meets : Meets movedImage zeros r p) : p = 0x510000 := by
  obtain ⟨q, skips, -, reached⟩ := meets
  rcases Relation.ReflTransGen.cases_head reached with rfl | ⟨next, step, -⟩
  · exact zeros_skips skips
  · exact absurd step.1 (zeros_not_inRange r q)

theorem zeros_orderly (r : Range) : Orderly movedImage zeros r where
  skipped := by
    intro p skips _
    obtain rfl := zeros_skips skips
    exact ⟨⟨of_decide_eq_true rfl, of_decide_eq_true rfl⟩, fun goes => absurd (zeros_stop r _) goes⟩
  forward := by
    intro p _ cycle
    obtain ⟨next, step, -⟩ := Relation.TransGen.head'_iff.mp cycle
    rw [Step, zeros_stop] at step
    cases step
  blocks := by
    intro p meets _
    obtain rfl := zeros_meets meets
    exact ⟨⟨of_decide_eq_true rfl, of_decide_eq_true rfl⟩,
      fun range => absurd range (zeros_not_inRange r _)⟩
  entries := fun p _ _ range => absurd range (zeros_not_inRange r p)
  targets := fun p _ _ range => absurd range (zeros_not_inRange r p)

/-- The `VirtualAddress` 0x1000, and `SizeOfBlock` 0. -/
def emptyBlock : Mem := fun a => if a = 0x510001 then 0x10 else 0

theorem emptyBlock_hangs (n : ℕ) : skipBlocks movedImage 0x2000 emptyBlock n 0x510000 = none := by
  induction n with
  | zero => rfl
  | succ n ih =>
    have va : ulong emptyBlock 0x510000 = 0x1000 := by decide +kernel
    have size : ulong emptyBlock (0x510000 + 4) = 0 := by decide +kernel
    have before : 0x510000 < movedImage.fixupsEnd := by decide +kernel
    have same : add32 0x510000 0 = 0x510000 := by decide +kernel
    rw [skipBlocks, if_pos before, va, if_pos (by decide), size, same, ih]
    rfl

end Proofs

end Odin32.PeFixups
