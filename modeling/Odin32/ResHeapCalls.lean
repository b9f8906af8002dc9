import Odin32.ResHeapRun

/-! # What the calls of the resident heap answer -/

set_option autoImplicit false

namespace Odin32.ResHeap
open Odin32.RankedTree Odin32.AvlTable Odin32.FreeSize Odin32.HeapBlocks Odin32.Tiling Odin32.Word

variable {debug : Bool} {h : ResHeap} {a : Answers} {place : Place} {trees trees' : BlockTrees}
variable {F F' U U' L : List Memblock} {b c pmb : Memblock} {pv cbSize cbNew : ℕ}

/-- The pointer to the bytes of a block in use of at least a size. -/
structure Answered (debug : Bool) (cb : ℕ) (h' : ResHeap) (pv : ℕ) : Prop where
  ok : HeapOk debug h'
  block : ∃ pha ∈ h'.anchors, ∃ b ∈ usedBlocks pha.trees, pv = b.uData + cbHdr debug ∧ cb ≤ b.cbSize

/-- What a call for `cb` bytes can come to. -/
inductive Returned (debug : Bool) (h : ResHeap) (crowded : Prop) (cb : ℕ) :
    Except Trap (ResHeap × Option ℕ) → Prop
  | null : Returned debug h crowded cb (.ok (h, none))
  | block {h' : ResHeap} {pv : ℕ} (answered : Answered debug cb h' pv) :
      Returned debug h crowded cb (.ok (h', some pv))
  | overrun : Returned debug h crowded cb (.error .stackOverrun)
  | overlap {cbFree : ℕ} (crowded_ : crowded) :
      Returned debug h crowded cb (.error (.overlap cbFree))

def MallocCrowded (debug : Bool) (a : Answers) (cbSize : ℕ) (h : ResHeap) : Prop :=
  cbSize ≠ 0 ∧ Crowded debug a (request debug cbSize) h

instance (debug : Bool) (a : Answers) (cbSize : ℕ) (h : ResHeap) :
    Decidable (MallocCrowded debug a cbSize h) :=
  inferInstanceAs (Decidable (_ ∧ _))

theorem Opened.pointer (opened : Opened debug place trees F U (b :: L)) :
    add32 b.uData (cbHdr debug) = b.uData + cbHdr debug := by
  obtain ⟨-, -, ends, word⟩ := opened.inside List.mem_cons_self
  exact add32_of_lt (by omega)

theorem answered_here {cb : ℕ} (opened : Opened debug place trees F (b :: U) [])
    (pointer : pv = b.uData + cbHdr debug) (size : cb ≤ b.cbSize) :
    Answered debug cb (h.put place trees) pv :=
  ⟨opened.close h, _, List.mem_append_right _ List.mem_cons_self, b,
    (mem_used opened.holds.used).2 List.mem_cons_self, pointer, size⟩

/-- The pointer to a block that was not in use before the call. -/
def Fresh (debug : Bool) (h : ResHeap) (pv : ℕ) : Prop :=
  ∀ c, InUse h c → pv ≠ c.uData + cbHdr debug

theorem rmalloc_spec (ok : HeapOk debug h) (sound : a.Sound h) (cbSize : ℕ) :
    Returned debug h (MallocCrowded debug a cbSize h) (request debug cbSize)
      (rmalloc debug a cbSize h) ∧
      ∀ h' pv, rmalloc debug a cbSize h = .ok (h', some pv) → Fresh debug h pv := by
  unfold rmalloc
  split_ifs with zero
  · exact ⟨.null, fun _ _ done => by cases done⟩
  · have got := resGetFreeMemblock_spec ok sound cbSize
    generalize resGetFreeMemblock debug a cbSize h = found at got ⊢
    cases got with
    | overrun => exact ⟨.overrun, fun _ _ done => by cases done⟩
    | overlap crowded => exact ⟨.overlap ⟨zero, crowded⟩, fun _ _ done => by cases done⟩
    | null => exact ⟨.null, fun _ _ done => by cases done⟩
    | block given =>
      rename_i front pha back pmb
      obtain ⟨F, U, opened⟩ := given.opened
      rw [ok_bind]
      dsimp only
      cases inserted : insertUsed pmb pha.trees with
      | none => exact ⟨.overrun, fun _ _ done => by cases done⟩
      | some trees =>
        have opened' := opened.insertUsed inserted
        show Returned _ _ _ _ (.ok (h.put (front, pha, back) trees,
          some (add32 pmb.uData (cbHdr debug)))) ∧ _
        rw [opened.pointer]
        refine ⟨.block (answered_here opened' rfl given.size), fun h' pv done => ?_⟩
        cases done
        intro c used same
        exact given.new c used (by omega)

/-- Blocks in use but for one address stay in use. -/
def Keeps (h h' : ResHeap) (uData : ℕ) : Prop :=
  ∀ c, InUse h c → c.uData ≠ uData → InUse h' c

theorem keeps_put (cut : h.anchors = place.1 ++ place.2.1 :: place.2.2) {uData : ℕ}
    (used : ∀ c ∈ usedBlocks place.2.1.trees, c.uData ≠ uData → c ∈ usedBlocks trees) :
    Keeps h (h.put place trees) uData := by
  rintro c ⟨pha, there, member⟩ other
  rw [cut] at there
  rcases List.mem_append.1 there with before | here
  · exact ⟨pha, List.mem_append_left _ before, member⟩
  · rcases List.mem_cons.1 here with rfl | behind
    · exact ⟨_, List.mem_append_right _ List.mem_cons_self, used c member other⟩
    · exact ⟨pha, List.mem_append_right _ (List.mem_cons_of_mem _ behind), member⟩

inductive Freed (debug : Bool) (h : ResHeap) (uData : ℕ) : Except Trap ResHeap → Prop
  | ok {h' : ResHeap} (ok : HeapOk debug h') (kept : Keeps h h' uData) : Freed debug h uData (.ok h')
  | overrun : Freed debug h uData (.error .stackOverrun)

theorem rfree_spec (ok : HeapOk debug h) (pv : ℕ) :
    Freed debug h (sub32 pv (cbHdr debug)) (rfree debug pv h) := by
  unfold rfree
  split_ifs with null
  · exact .ok ok fun c used _ => used
  · cases found : findAnchor pv h.anchors with
    | none => exact .ok ok fun c used _ => used
    | some place =>
      obtain ⟨cut, -⟩ := findAnchor_some found
      have opened := ok.opened cut
      dsimp only
      cases removed : removeUsed (sub32 pv (cbHdr debug)) place.2.1.trees with
      | none => exact .overrun
      | some r =>
        obtain ⟨trees, gone⟩ := r
        rcases opened.removeUsed removed with ⟨rfl, opened'⟩ | ⟨b, U', rfl, start, perm, opened'⟩
        · refine .ok (opened'.close h) (keeps_put cut fun c member _ => ?_)
          exact (mem_used opened'.holds.used).2 member
        · show Freed _ _ _ (orOverrun (insertFree (cbHdr debug) b trees) >>= _)
          cases inserted : insertFree (cbHdr debug) b trees with
          | none => exact .overrun
          | some r =>
            obtain ⟨trees', released⟩ := r
            obtain ⟨F', opened''⟩ := opened'.insertFree inserted
            refine .ok (opened''.close h) (keeps_put cut fun c member other => ?_)
            refine (mem_used opened''.holds.used).2 ((List.mem_cons.1
              (perm.mem_iff.1 member)).resolve_left ?_)
            rintro rfl
            exact other start

/-! ## Reallocation -/

theorem findUsed_some (ok : HeapOk debug h)
    (found : resFindUsedBlock debug pv h = some (place, pmb)) :
    h.anchors = place.1 ++ place.2.1 :: place.2.2 ∧ pmb ∈ usedBlocks place.2.1.trees ∧
      pv = pmb.uData + cbHdr debug ∧ pv < 0x100000000 := by
  unfold resFindUsedBlock at found
  split_ifs at found with null
  simp only [Option.bind_eq_bind, Option.bind_eq_some_iff, Option.some.injEq, Prod.mk.injEq]
    at found
  obtain ⟨place', anchor, e, got, rfl, rfl⟩ := found
  obtain ⟨cut, low, high⟩ := findAnchor_some anchor
  have opened := ok.opened cut
  obtain ⟨key, there⟩ := get_some got
  obtain ⟨used, start⟩ := opened.holds.used.mem.1 there
  have page := opened.page
  have header := cbHdr_le debug
  have word := add32_lt place'.2.1.pha place'.2.1.cbSize
  have less : sub32 pv (cbHdr debug) = pv - cbHdr debug := sub32_of_le (by omega) (by omega)
  exact ⟨cut, used, by omega, by omega⟩

/-- The size `rrealloc` hands on to `rmalloc`, when it does. -/
def forwarded (debug : Bool) (pv cbNew : ℕ) (h : ResHeap) : Option ℕ :=
  match resFindUsedBlock debug pv h with
  | some (place, pmb) =>
    if newSize cbNew ≤ pmb.cbSize then none
    else
      match (rightOf (cbHdr debug) pmb place.2.1.trees).filter fun pmbfRight =>
          newSize cbNew ≤ add32 (add32 pmbfRight.cbSize pmb.cbSize) (cbHdr debug) with
      | some _ => none
      | none => some (newSize cbNew)
  | none => if pv = 0 then some cbNew else none

def ReallocCrowded (debug : Bool) (a : Answers) (pv cbNew : ℕ) (h : ResHeap) : Prop :=
  ∃ cb, forwarded debug pv cbNew h = some cb ∧ MallocCrowded debug a cb h

/-- The bytes a reallocation is to have. -/
def wanted (debug : Bool) (pv cbNew : ℕ) (h : ResHeap) : ℕ :=
  match forwarded debug pv cbNew h with
  | some cb => request debug cb
  | none => newSize cbNew

section Realloc

variable {crowded : Prop}

theorem shrink_spec (ok : HeapOk debug h)
    (found : resFindUsedBlock debug pv h = some (place, pmb)) (large : cbLeast ≤ cbNew)
    (less : cbNew ≤ pmb.cbSize) :
    Returned debug h crowded cbNew (shrink debug pv cbNew place pmb h) := by
  obtain ⟨cut, used, pointer, -⟩ := findUsed_some ok found
  obtain ⟨U, perm⟩ := exists_cons used
  have opened := (ok.opened cut).perm (List.Perm.refl _) perm
  have here : pmb ∈ [] ++ (freeBlocks place.2.1.trees ++ pmb :: U) :=
    List.mem_append_right _ (List.mem_append_right _ List.mem_cons_self)
  obtain ⟨page, behind, ends, word⟩ := opened.inside here
  have header := cbHdr_pos debug
  have header' := cbHdr_le debug
  have least : cbLeast = 16 := rfl
  have sum : add32 cbNew (cbMemblockFree debug) = cbNew + (cbHdr debug + cbLeast) :=
    add32_of_lt (by unfold cbMemblockFree; omega)
  unfold shrink
  rw [sum]
  split_ifs with more
  · have node : u32 (pmb.uData + cbHdr debug + cbNew) = pmb.uData + cbHdr debug + cbNew :=
      Nat.mod_eq_of_lt (by omega)
    have ending : endOf (cbHdr debug) pmb = pmb.uData + cbHdr debug + pmb.cbSize := rfl
    have fresh : ∀ d ∈ pmb :: ([] ++ (freeBlocks place.2.1.trees ++ U)),
        d.pmb ≠ u32 (pmb.uData + cbHdr debug + cbNew) := by
      rw [node]
      intro d there
      exact opened.fresh here (by omega) (by omega) d (List.perm_middle.mem_iff.2 there)
    have tail := trim_spec opened.holds (by decide) large (by omega) fresh
    have loose : Opened debug place (trim cbNew pmb place.2.1.trees) (freeBlocks place.2.1.trees)
        (resized cbNew pmb :: U)
        [tailOf (cbHdr debug) cbNew (u32 (pmb.uData + cbHdr debug + cbNew)) pmb] := by
      refine ⟨opened.others, opened.apart, opened.page, tail, fun x there => ?_⟩
      rcases List.mem_cons.1 there with rfl | there
      · rfl
      · rcases List.mem_cons.1 (List.perm_middle.mem_iff.1 there) with rfl | there
        · exact opened.own pmb here
        · exact opened.own x (List.perm_middle.mem_iff.2 (List.mem_cons_of_mem _ there))
    show Returned _ _ _ _ (orOverrun (insertFree (cbHdr debug) _ _) >>= _)
    cases inserted : insertFree (cbHdr debug)
        (tailOf (cbHdr debug) cbNew (u32 (pmb.uData + cbHdr debug + cbNew)) pmb)
        (trim cbNew pmb place.2.1.trees) with
    | none => exact .overrun
    | some r =>
      obtain ⟨trees, released⟩ := r
      obtain ⟨F', opened'⟩ := loose.insertFree inserted
      exact .block (answered_here opened' pointer (Nat.le_refl _))
  · exact .block ⟨ok, place.2.1, cut ▸ List.mem_append_right _ List.mem_cons_self, pmb, used,
      pointer, less⟩

theorem expand_here (ok : HeapOk debug h)
    (found : resFindUsedBlock debug pv h = some (place, pmb)) (more : pmb.cbSize < cbNew)
    {pmbfRight : Memblock} (right : rightOf (cbHdr debug) pmb place.2.1.trees = some pmbfRight)
    (fits : cbNew ≤ add32 (add32 pmbfRight.cbSize pmb.cbSize) (cbHdr debug)) :
    Returned debug h crowded cbNew (expand debug a pv cbNew place pmb h) := by
  obtain ⟨cut, used, pointer, -⟩ := findUsed_some ok found
  obtain ⟨U, perm⟩ := exists_cons used
  have opened := (ok.opened cut).perm (List.Perm.refl _) perm
  have here : pmb ∈ [] ++ (freeBlocks place.2.1.trees ++ pmb :: U) :=
    List.mem_append_right _ (List.mem_append_right _ List.mem_cons_self)
  obtain ⟨e, got, rfl⟩ := Option.map_eq_some_iff.1 right
  obtain ⟨key, there⟩ := get_some got
  obtain ⟨free, start⟩ := opened.holds.free.byAddr.mem.1 there
  rw [opened.holds.laid.nextBlock_eq here] at key
  have meet : endOf (cbHdr debug) pmb = e.2.uData := key.symm.trans start
  obtain ⟨F, permF⟩ := exists_cons free
  have opened := opened.perm permF (List.Perm.refl _)
  have right_here : e.2 ∈ [] ++ (e.2 :: F ++ pmb :: U) := List.mem_cons_self
  obtain ⟨page, behind, ends, word⟩ := opened.inside right_here
  have large := opened.large right_here
  have large' := opened.large (List.mem_append_right _ (List.mem_append_right _
    List.mem_cons_self) : pmb ∈ [] ++ (e.2 :: F ++ pmb :: U))
  have endB : endOf (cbHdr debug) pmb = pmb.uData + cbHdr debug + pmb.cbSize := rfl
  have endC : endOf (cbHdr debug) e.2 = e.2.uData + cbHdr debug + e.2.cbSize := rfl
  have header := cbHdr_pos debug
  have header' := cbHdr_le debug
  have least : cbLeast = 16 := rfl
  have free_ : cbMemblockFree debug = cbHdr debug + cbLeast := rfl
  have one : add32 e.2.cbSize pmb.cbSize = e.2.cbSize + pmb.cbSize := add32_of_lt (by omega)
  have two : add32 (e.2.cbSize + pmb.cbSize) (cbHdr debug) =
      e.2.cbSize + pmb.cbSize + cbHdr debug := add32_of_lt (by omega)
  have three : sub32 (e.2.cbSize + pmb.cbSize + cbHdr debug) (cbMemblockFree debug) =
      e.2.cbSize + pmb.cbSize + cbHdr debug - cbMemblockFree debug :=
    sub32_of_le (by omega) (by omega)
  have kept : (some e.2).filter (fun r =>
      decide (cbNew ≤ add32 (add32 r.cbSize pmb.cbSize) (cbHdr debug))) = some e.2 :=
    Option.filter_eq_some_iff.2 ⟨rfl, decide_eq_true fits⟩
  rw [one, two] at fits
  unfold expand
  dsimp only
  rw [right, kept]
  simp only [one, two, three]
  split_ifs with split
  · have node : u32 (pmb.uData + cbHdr debug + cbNew) = pmb.uData + cbHdr debug + cbNew :=
      Nat.mod_eq_of_lt (by omega)
    have fresh : ∀ d ∈ pmb :: ([] ++ (F ++ U)),
        d.pmb ≠ u32 (pmb.uData + cbHdr debug + cbNew) := by
      rw [node]
      intro d there
      refine opened.fresh right_here (by omega) (by omega) d ?_
      exact List.mem_cons_of_mem _ (List.perm_middle.mem_iff.2 there)
    show Returned _ _ _ _ (orOverrun (growInto (cbHdr debug) cbNew _ pmb e.2 _) >>= _)
    cases grown_ : growInto (cbHdr debug) cbNew (u32 (pmb.uData + cbHdr debug + cbNew)) pmb e.2
        place.2.1.trees with
    | none => exact .overrun
    | some trees =>
      have holds := growInto_spec opened.holds meet (by decide) (Nat.le_of_lt more) (by omega)
        fresh grown_
      refine .block (answered_here ⟨opened.others, opened.apart, opened.page, holds,
        fun x there => ?_⟩ pointer (Nat.le_refl _))
      rcases List.mem_cons.1 there with rfl | there
      · rfl
      · rcases List.mem_cons.1 (List.perm_middle.mem_iff.1 there) with rfl | there
        · exact opened.own pmb (List.mem_append_right _ (List.mem_append_right _
            List.mem_cons_self))
        · exact opened.own x (List.mem_cons_of_mem _ (List.perm_middle.mem_iff.2
            (List.mem_cons_of_mem _ there)))
  · show Returned _ _ _ _ (orOverrun (growOver (cbHdr debug) pmb e.2 _) >>= _)
    cases grown_ : growOver (cbHdr debug) pmb e.2 place.2.1.trees with
    | none => exact .overrun
    | some r =>
      obtain ⟨trees, ok_⟩ := r
      obtain ⟨rfl, holds⟩ := growOver_spec opened.holds meet grown_
      refine .block (answered_here ⟨opened.others, opened.apart, opened.page, holds,
        fun x there => ?_⟩ pointer ?_)
      · rcases List.mem_cons.1 (List.perm_middle.mem_iff.1 there) with rfl | there
        · exact opened.own pmb (List.mem_append_right _ (List.mem_append_right _
            List.mem_cons_self))
        · exact opened.own x (List.mem_cons_of_mem _ (List.perm_middle.mem_iff.2
            (List.mem_cons_of_mem _ there)))
      · rw [grown_size meet (by omega)]
        omega

end Realloc

theorem Returned.imp {crowded crowded' : Prop} {cb cb' : ℕ}
    {r : Except Trap (ResHeap × Option ℕ)} (returned : Returned debug h crowded cb r)
    (same : crowded → crowded') (weaker : cb' ≤ cb) : Returned debug h crowded' cb' r := by
  cases returned with
  | null => exact .null
  | block answered =>
    obtain ⟨ok, pha, there, b, used, pointer, size⟩ := answered
    exact .block ⟨ok, pha, there, b, used, pointer, Nat.le_trans weaker size⟩
  | overrun => exact .overrun
  | overlap crowded_ => exact .overlap (same crowded_)

theorem rrealloc_spec (ok : HeapOk debug h) (sound : a.Sound h) (pv cbNew : ℕ) :
    Returned debug h (ReallocCrowded debug a pv cbNew h) (wanted debug pv cbNew h)
      (rrealloc debug a pv cbNew h) := by
  unfold rrealloc
  cases found : resFindUsedBlock debug pv h with
  | none =>
    have hands : forwarded debug pv cbNew h = if pv = 0 then some cbNew else none := by
      unfold forwarded
      rw [found]
    dsimp only
    split_ifs with null
    · rw [if_pos null] at hands
      refine (rmalloc_spec ok sound cbNew).1.imp (fun crowded => ⟨cbNew, hands, crowded⟩) ?_
      unfold wanted
      rw [hands]
    · exact .null
  | some r =>
    obtain ⟨place, pmb⟩ := r
    obtain ⟨cut, used, pointer, word⟩ := findUsed_some ok found
    have least : cbLeast ≤ newSize cbNew := Nat.le_max_right _ _
    dsimp only
    split_ifs with less
    · have keeps : forwarded debug pv cbNew h = none := by
        unfold forwarded
        rw [found]
        exact if_pos less
      have size : wanted debug pv cbNew h = newSize cbNew := by
        unfold wanted
        rw [keeps]
      rw [size]
      exact shrink_spec ok found least less
    · cases right : (rightOf (cbHdr debug) pmb place.2.1.trees).filter
          fun pmbfRight => newSize cbNew ≤ add32 (add32 pmbfRight.cbSize pmb.cbSize) (cbHdr debug) with
      | some pmbfRight =>
        have keeps : forwarded debug pv cbNew h = none := by
          unfold forwarded
          rw [found]
          dsimp only
          rw [if_neg less, right]
        have size : wanted debug pv cbNew h = newSize cbNew := by
          unfold wanted
          rw [keeps]
        obtain ⟨there, fits⟩ := Option.filter_eq_some_iff.1 right
        rw [size]
        exact expand_here ok found (Nat.lt_of_not_le less) there (of_decide_eq_true fits)
      | none =>
        have hands : forwarded debug pv cbNew h = some (newSize cbNew) := by
          unfold forwarded
          rw [found]
          dsimp only
          rw [if_neg less, right]
        have size : wanted debug pv cbNew h = request debug (newSize cbNew) := by
          unfold wanted
          rw [hands]
        obtain ⟨spec, fresh⟩ := rmalloc_spec ok sound (newSize cbNew)
        rw [size]
        unfold expand
        dsimp only
        rw [right]
        dsimp only
        generalize rmalloc debug a (newSize cbNew) h = got at spec fresh ⊢
        cases spec with
        | overrun => exact .overrun
        | overlap crowded => exact .overlap ⟨_, hands, crowded⟩
        | null => exact .null
        | block answered =>
          rename_i h' pvRet
          have freed := rfree_spec answered.ok pv
          rw [ok_bind]
          dsimp only
          generalize rfree debug pv h' = result at freed ⊢
          cases freed with
          | overrun => exact .overrun
          | ok ok'' kept =>
            obtain ⟨pha, there, b, used', rfl, large⟩ := answered.block
            have new := fresh h' _ rfl pmb
              ⟨place.2.1, cut ▸ List.mem_append_right _ List.mem_cons_self, used⟩
            have before : sub32 pv (cbHdr debug) = pmb.uData := by
              rw [sub32_of_le (by omega) word]
              omega
            obtain ⟨pha', there', used''⟩ := kept b ⟨pha, there, used'⟩ (by omega)
            exact .block ⟨ok'', pha', there', b, used'', rfl, large⟩

end Odin32.ResHeap
