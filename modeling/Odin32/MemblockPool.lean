import Odin32.Word
import Mathlib.Data.List.Count
import Mathlib.Data.List.Perm.Basic
import Mathlib.Data.List.Nodup
import Mathlib.Data.List.Range
import Mathlib.Algebra.GroupWithZero.Nat

/-! # The block descriptors of the swappable heap

`swpAllocateMemblock` and `swpReleaseMemblock` hand out the entries of chunks of 256 descriptors.
A chunk counts its free entries and marks the others in a bitmap. The scan for a clear bit has no
bound of its own; it has no result where it leaves the bitmap. -/

set_option autoImplicit false

namespace Odin32.MemblockPool
open Odin32.Word

def memblocksPerChunk : ℕ := 256

/-- `sizeof(MEMBLOCK)`. -/
def cbMemblock : ℕ := 36

/-- The chunk's bytes in front of `amb`. -/
def cbChunkHead : ℕ := 40

/-- `sizeof(MEMBLOCKCHUNK)`. -/
def cbChunk : ℕ := cbChunkHead + memblocksPerChunk * cbMemblock

structure MemblockChunk where
  pmc : ℕ
  cFree : ℕ
  achBitmap : List Bool
deriving DecidableEq, Repr

/-- `&pmc->amb[i]`. -/
def descriptor (pmc i : ℕ) : ℕ := pmc + cbChunkHead + cbMemblock * i

def newChunk (pmc : ℕ) : MemblockChunk :=
  ⟨pmc, memblocksPerChunk, List.replicate memblocksPerChunk false⟩

/-- `while (*pul == 0xFFFFFFFF)`. -/
def scanWords (bits : List Bool) : ℕ → ℕ → Option ℕ
  | 0, _ => none
  | words + 1, i =>
    if (bits.drop i).take 32 = List.replicate 32 true then scanWords bits words (i + 32)
    else some i

/-- `while (pmc->achBitmap[i/8] & (0x1 << (i%8)))`. -/
def scanBits : List Bool → ℕ → Option ℕ
  | [], _ => none
  | true :: bits, i => scanBits bits (i + 1)
  | false :: _, i => some i

def firstClear (bits : List Bool) : Option ℕ :=
  (scanWords bits 8 0).bind fun i => scanBits (bits.drop i) i

def allocateIn (pmc : MemblockChunk) : Option (MemblockChunk × ℕ) :=
  (firstClear pmc.achBitmap).map fun i =>
    ({ pmc with cFree := sub32 pmc.cFree 1, achBitmap := pmc.achBitmap.set i true },
      descriptor pmc.pmc i)

/-- The chunks afterwards and the descriptor, where `rmalloc` answers the request for another
chunk. -/
def swpAllocateMemblock (rmalloc : Option ℕ) : List MemblockChunk →
    Option (List MemblockChunk × Option ℕ)
  | [] =>
    match rmalloc with
    | none => some ([], none)
    | some pmc => (allocateIn (newChunk pmc)).map fun r => ([r.1], some r.2)
  | pmc :: rest =>
    if pmc.cFree = 0 then
      (swpAllocateMemblock rmalloc rest).map fun r => (pmc :: r.1, r.2)
    else (allocateIn pmc).map fun r => (r.1 :: rest, some r.2)

def releaseIn (pmb : ℕ) (pmc : MemblockChunk) : MemblockChunk :=
  let i := (pmb - descriptor pmc.pmc 0) / cbMemblock
  { pmc with cFree := add32 pmc.cFree 1, achBitmap := pmc.achBitmap.set i false }

def swpReleaseMemblock (pmb : ℕ) : List MemblockChunk → List MemblockChunk
  | [] => []
  | pmc :: rest =>
    if pmc.pmc < pmb ∧ pmb < add32 pmc.pmc cbChunk then releaseIn pmb pmc :: rest
    else pmc :: swpReleaseMemblock pmb rest

/-- The chunks but the first one that are wholly free are given back by `_swp_heapmin`. -/
def minChunks : List MemblockChunk → List MemblockChunk
  | [] => []
  | pmc :: rest => pmc :: rest.filter fun other => other.cFree ≠ memblocksPerChunk

/-! ## The scan -/

theorem scanBits_some {bits : List Bool} {i j : ℕ} (found : scanBits bits i = some j) :
    ∃ k, j = i + k ∧ bits[k]? = some false := by
  induction bits generalizing i with
  | nil => cases found
  | cons bit bits ih =>
    cases bit with
    | false => exact ⟨0, (Option.some.inj found).symm, rfl⟩
    | true =>
      obtain ⟨k, at_, clear⟩ := ih found
      exact ⟨k + 1, by omega, clear⟩

theorem scanBits_isSome {bits : List Bool} (clear : false ∈ bits) (i : ℕ) :
    ∃ j, scanBits bits i = some j := by
  induction bits generalizing i with
  | nil => cases clear
  | cons bit bits ih =>
    cases bit with
    | false => exact ⟨i, rfl⟩
    | true => exact ih ((List.mem_cons.1 clear).resolve_left Bool.false_ne_true) (i + 1)

theorem scanWords_isSome {bits : List Bool} {words i : ℕ} (length : bits.length = i + 32 * words)
    (clear : false ∈ bits.drop i) :
    ∃ j, scanWords bits words i = some j ∧ false ∈ bits.drop j := by
  induction words generalizing i with
  | zero =>
    rw [List.drop_eq_nil_of_le (by omega)] at clear
    cases clear
  | succ words ih =>
    rw [scanWords]
    split_ifs with full
    · refine ih (by omega) ?_
      rw [← List.take_append_drop 32 (bits.drop i), full, List.mem_append, List.drop_drop] at clear
      rcases clear with word | later
      · exact absurd (List.eq_of_mem_replicate word) Bool.false_ne_true
      · exact later
    · exact ⟨i, rfl, clear⟩

theorem firstClear_some {bits : List Bool} {i : ℕ} (found : firstClear bits = some i) :
    bits[i]? = some false := by
  obtain ⟨j, -, scanned⟩ := Option.bind_eq_some_iff.1 found
  obtain ⟨k, rfl, clear⟩ := scanBits_some scanned
  rwa [List.getElem?_drop] at clear

theorem firstClear_isSome {bits : List Bool} (length : bits.length = memblocksPerChunk)
    (clear : false ∈ bits) : ∃ i, firstClear bits = some i := by
  obtain ⟨j, scanned, later⟩ := @scanWords_isSome bits 8 0 length clear
  obtain ⟨i, found⟩ := scanBits_isSome later j
  exact ⟨i, Option.bind_eq_some_iff.2 ⟨j, scanned, found⟩⟩

/-! ## The pool -/

/-- The descriptors of a chunk that are marked used. -/
def marked (pmc : MemblockChunk) : List ℕ :=
  ((List.range memblocksPerChunk).filter fun i => pmc.achBitmap[i]? = some true).map
    (descriptor pmc.pmc)

def allocated (chunks : List MemblockChunk) : List ℕ := chunks.flatMap marked

/-- The free entries are counted, and the chunk lies in the address space. -/
structure ChunkOk (pmc : MemblockChunk) : Prop where
  bits : pmc.achBitmap.length = memblocksPerChunk
  counts : pmc.cFree = pmc.achBitmap.count false
  word : pmc.pmc + cbChunk < 0x100000000

def Away (c d : MemblockChunk) : Prop := c.pmc + cbChunk ≤ d.pmc ∨ d.pmc + cbChunk ≤ c.pmc

structure PoolOk (chunks : List MemblockChunk) : Prop where
  chunk : ∀ pmc ∈ chunks, ChunkOk pmc
  away : chunks.Pairwise Away

/-- What `rmalloc` promises of memory for another chunk. -/
def Fresh (chunks : List MemblockChunk) (pmc : ℕ) : Prop :=
  pmc + cbChunk < 0x100000000 ∧ ∀ c ∈ chunks, Away c (newChunk pmc)

section Marked

variable {pmc : MemblockChunk} {i : ℕ}

theorem descriptor_injective (pmc : ℕ) : Function.Injective (descriptor pmc) := by
  intro i j same
  unfold descriptor cbMemblock at same
  omega

theorem mem_marked {pmb : ℕ} :
    pmb ∈ marked pmc ↔
      ∃ i < memblocksPerChunk, pmc.achBitmap[i]? = some true ∧ descriptor pmc.pmc i = pmb := by
  simp only [marked, List.mem_map, List.mem_filter, List.mem_range, decide_eq_true_eq, and_assoc]

theorem marked_nodup : (marked pmc).Nodup :=
  (List.nodup_range.filter _).map (descriptor_injective pmc.pmc)

theorem marked_range {pmb : ℕ} (there : pmb ∈ marked pmc) :
    pmc.pmc < pmb ∧ pmb < pmc.pmc + cbChunk := by
  obtain ⟨i, less, -, rfl⟩ := mem_marked.1 there
  unfold memblocksPerChunk at less
  unfold descriptor cbChunk cbChunkHead memblocksPerChunk cbMemblock
  omega

theorem marked_newChunk (pmc : ℕ) : marked (newChunk pmc) = [] := by
  rw [List.eq_nil_iff_forall_not_mem]
  intro pmb there
  obtain ⟨i, less, bit, -⟩ := mem_marked.1 there
  have clear : (newChunk pmc).achBitmap[i]? = some false :=
    List.getElem?_replicate_of_lt less
  rw [clear] at bit
  cases bit

theorem marked_set (length : pmc.achBitmap.length = memblocksPerChunk)
    (clear : pmc.achBitmap[i]? = some false) (cFree : ℕ) :
    (marked ⟨pmc.pmc, cFree, pmc.achBitmap.set i true⟩).Perm
      (descriptor pmc.pmc i :: marked pmc) := by
  have inside : i < pmc.achBitmap.length := (List.getElem?_eq_some_iff.1 clear).1
  have new : descriptor pmc.pmc i ∉ marked pmc := by
    intro there
    obtain ⟨j, -, bit, same⟩ := mem_marked.1 there
    obtain rfl := descriptor_injective pmc.pmc same
    rw [clear] at bit
    cases bit
  refine (List.perm_ext_iff_of_nodup marked_nodup (List.nodup_cons.2 ⟨new, marked_nodup⟩)).2 ?_
  intro pmb
  rw [List.mem_cons, mem_marked, mem_marked]
  constructor
  · rintro ⟨j, less, bit, rfl⟩
    by_cases same : i = j
    · exact Or.inl (by rw [same])
    · exact Or.inr ⟨j, less, by rwa [List.getElem?_set_ne same] at bit, rfl⟩
  · rintro (rfl | ⟨j, less, bit, rfl⟩)
    · exact ⟨i, length ▸ inside, List.getElem?_set_self inside, rfl⟩
    · refine ⟨j, less, ?_, rfl⟩
      have other : i ≠ j := by
        rintro rfl
        rw [clear] at bit
        cases bit
      rwa [List.getElem?_set_ne other]

end Marked

theorem newChunk_ok {pmc : ℕ} (word : pmc + cbChunk < 0x100000000) : ChunkOk (newChunk pmc) :=
  ⟨List.length_replicate, List.count_replicate_self.symm, word⟩

theorem count_le {pmc : MemblockChunk} (ok : ChunkOk pmc) : pmc.cFree ≤ memblocksPerChunk := by
  rw [ok.counts, ← ok.bits]
  exact List.count_le_length

theorem allocateIn_spec {pmc : MemblockChunk} (ok : ChunkOk pmc) (free : pmc.cFree ≠ 0) :
    ∃ pmc' pmb, allocateIn pmc = some (pmc', pmb) ∧ pmc'.pmc = pmc.pmc ∧ ChunkOk pmc' ∧
      (marked pmc').Perm (pmb :: marked pmc) := by
  have clear : false ∈ pmc.achBitmap :=
    List.count_pos_iff.1 (Nat.pos_of_ne_zero (ok.counts ▸ free))
  obtain ⟨i, found⟩ := firstClear_isSome ok.bits clear
  have bit := firstClear_some found
  obtain ⟨inside, bit_eq⟩ := List.getElem?_eq_some_iff.1 bit
  refine ⟨⟨pmc.pmc, sub32 pmc.cFree 1, pmc.achBitmap.set i true⟩, descriptor pmc.pmc i, ?_, rfl,
    ⟨(List.length_set ..).trans ok.bits, ?_, ok.word⟩, marked_set ok.bits bit _⟩
  · rw [allocateIn, found]
    rfl
  · have most := count_le ok
    unfold memblocksPerChunk at most
    have less : sub32 pmc.cFree 1 = pmc.cFree - 1 := sub32_of_le (by omega) (by omega)
    show sub32 pmc.cFree 1 = (pmc.achBitmap.set i true).count false
    rw [List.count_set inside, bit_eq, less, ok.counts]
    rfl

theorem releaseIn_spec {pmc : MemblockChunk} (ok : ChunkOk pmc) {pmb : ℕ}
    (there : pmb ∈ marked pmc) :
    ChunkOk (releaseIn pmb pmc) ∧ (marked pmc).Perm (pmb :: marked (releaseIn pmb pmc)) := by
  obtain ⟨i, less, bit, rfl⟩ := mem_marked.1 there
  obtain ⟨inside, bit_eq⟩ := List.getElem?_eq_some_iff.1 bit
  have index : (descriptor pmc.pmc i - descriptor pmc.pmc 0) / cbMemblock = i := by
    unfold descriptor cbMemblock
    omega
  have released : releaseIn (descriptor pmc.pmc i) pmc =
      ⟨pmc.pmc, add32 pmc.cFree 1, pmc.achBitmap.set i false⟩ := by
    rw [releaseIn, index]
  have length : (pmc.achBitmap.set i false).length = memblocksPerChunk :=
    (List.length_set ..).trans ok.bits
  rw [released]
  constructor
  · refine ⟨length, ?_, ok.word⟩
    have most := count_le ok
    unfold memblocksPerChunk at most
    have more : add32 pmc.cFree 1 = pmc.cFree + 1 := add32_of_lt (by omega)
    show add32 pmc.cFree 1 = (pmc.achBitmap.set i false).count false
    rw [List.count_set inside, bit_eq, more, ok.counts]
    rfl
  · -- marking the cleared bit gives the chunk back
    have back := @marked_set ⟨pmc.pmc, add32 pmc.cFree 1, pmc.achBitmap.set i false⟩ i length
      (List.getElem?_set_self inside) pmc.cFree
    have same : (pmc.achBitmap.set i false).set i true = pmc.achBitmap := by
      rw [List.set_set, ← bit_eq, List.set_getElem_self]
    simp only [same] at back
    exact back

theorem away_of_pmc {c c' d : MemblockChunk} (same : c'.pmc = c.pmc) (away : Away c d) :
    Away c' d := by
  unfold Away at away ⊢
  rwa [same]

section Pool

variable {pmc : MemblockChunk} {chunks chunks' : List MemblockChunk}

theorem poolOk_cons : PoolOk (pmc :: chunks) ↔
    ChunkOk pmc ∧ (∀ c ∈ chunks, Away pmc c) ∧ PoolOk chunks := by
  constructor
  · intro ok
    obtain ⟨apart, away⟩ := List.pairwise_cons.1 ok.away
    exact ⟨ok.chunk pmc List.mem_cons_self, apart,
      fun c there => ok.chunk c (List.mem_cons_of_mem _ there), away⟩
  · rintro ⟨first, apart, rest⟩
    refine ⟨fun c there => ?_, List.pairwise_cons.2 ⟨apart, rest.away⟩⟩
    rcases List.mem_cons.1 there with rfl | there
    · exact first
    · exact rest.chunk c there

theorem allocated_cons (pmc : MemblockChunk) (chunks : List MemblockChunk) :
    allocated (pmc :: chunks) = marked pmc ++ allocated chunks := rfl

theorem allocated_nodup (ok : PoolOk chunks) : (allocated chunks).Nodup := by
  induction chunks with
  | nil => exact List.nodup_nil
  | cons pmc chunks ih =>
    obtain ⟨-, away, rest⟩ := poolOk_cons.1 ok
    rw [allocated_cons, List.nodup_append]
    refine ⟨marked_nodup, ih rest, ?_⟩
    rintro pmb here _ there rfl
    obtain ⟨c, member, inside⟩ := List.mem_flatMap.1 there
    have range := marked_range here
    have other := marked_range inside
    have apart := away c member
    unfold Away at apart
    omega

theorem allocate_spec (ok : PoolOk chunks) {rmalloc : Option ℕ}
    (fresh : ∀ pmc, rmalloc = some pmc → Fresh chunks pmc) :
    ∃ chunks' pmb, swpAllocateMemblock rmalloc chunks = some (chunks', pmb) ∧ PoolOk chunks' ∧
      (allocated chunks').Perm (pmb.toList ++ allocated chunks) ∧
      (∀ c' ∈ chunks', (∃ c ∈ chunks, c.pmc = c'.pmc) ∨ rmalloc = some c'.pmc) := by
  induction chunks with
  | nil =>
    cases rmalloc with
    | none => exact ⟨[], none, rfl, ok, List.Perm.refl _, fun _ there => absurd there (by simp)⟩
    | some pmc =>
      have new := newChunk_ok (fresh pmc rfl).1
      obtain ⟨c, pmb, done, start, okC, marks⟩ := allocateIn_spec new
        (show memblocksPerChunk ≠ 0 by decide)
      refine ⟨[c], some pmb, by rw [swpAllocateMemblock, done]; rfl,
        poolOk_cons.2 ⟨okC, fun _ there => absurd there List.not_mem_nil, ok⟩, ?_, ?_⟩
      · rw [marked_newChunk] at marks
        exact marks.append_right _
      · intro c' there
        obtain rfl := List.mem_singleton.1 there
        exact Or.inr (by rw [start]; rfl)
  | cons pmc chunks ih =>
    obtain ⟨first, away, rest⟩ := poolOk_cons.1 ok
    rw [swpAllocateMemblock]
    split_ifs with full
    · obtain ⟨chunks', pmb, done, ok', marks, from_⟩ := ih rest fun c h =>
        ⟨(fresh c h).1, fun d there => (fresh c h).2 d (List.mem_cons_of_mem _ there)⟩
      refine ⟨pmc :: chunks', pmb, by rw [done]; rfl, poolOk_cons.2 ⟨first, ?_, ok'⟩, ?_, ?_⟩
      · intro c' there
        rcases from_ c' there with ⟨c, member, same⟩ | new
        · have apart := away c member
          unfold Away at apart ⊢
          rwa [← same]
        · exact (fresh _ new).2 pmc List.mem_cons_self
      · rw [allocated_cons, allocated_cons]
        refine (marks.append_left _).trans ?_
        rw [← List.append_assoc, ← List.append_assoc]
        exact List.perm_append_comm.append_right _
      · intro c' there
        rcases List.mem_cons.1 there with rfl | there
        · exact Or.inl ⟨c', List.mem_cons_self, rfl⟩
        · rcases from_ c' there with ⟨c, member, same⟩ | new
          · exact Or.inl ⟨c, List.mem_cons_of_mem _ member, same⟩
          · exact Or.inr new
    · obtain ⟨c, pmb, done, start, okC, marks⟩ := allocateIn_spec first full
      refine ⟨c :: chunks, some pmb, by rw [done]; rfl,
        poolOk_cons.2 ⟨okC, fun d there => away_of_pmc start (away d there), rest⟩, ?_, ?_⟩
      · exact marks.append_right _
      · intro c' there
        rcases List.mem_cons.1 there with rfl | there
        · exact Or.inl ⟨pmc, List.mem_cons_self, start.symm⟩
        · exact Or.inl ⟨c', List.mem_cons_of_mem _ there, rfl⟩

theorem release_spec (ok : PoolOk chunks) {pmb : ℕ} (there : pmb ∈ allocated chunks) :
    PoolOk (swpReleaseMemblock pmb chunks) ∧
      (allocated chunks).Perm (pmb :: allocated (swpReleaseMemblock pmb chunks)) ∧
      (swpReleaseMemblock pmb chunks).map MemblockChunk.pmc = chunks.map MemblockChunk.pmc := by
  induction chunks with
  | nil => cases there
  | cons pmc chunks ih =>
    obtain ⟨first, away, rest⟩ := poolOk_cons.1 ok
    have word : add32 pmc.pmc cbChunk = pmc.pmc + cbChunk := add32_of_lt first.word
    rw [swpReleaseMemblock, word]
    rw [allocated_cons, List.mem_append] at there
    split_ifs with range
    · have here : pmb ∈ marked pmc := by
        rcases there with here | later
        · exact here
        · obtain ⟨c, member, inside⟩ := List.mem_flatMap.1 later
          have other := marked_range inside
          have apart := away c member
          unfold Away at apart
          omega
      obtain ⟨okC, marks⟩ := releaseIn_spec first here
      exact ⟨poolOk_cons.2 ⟨okC, fun d member => away_of_pmc rfl (away d member), rest⟩,
        marks.append_right _, rfl⟩
    · obtain ⟨ok', marks, same⟩ := ih rest (there.resolve_left fun here => range (marked_range here))
      refine ⟨poolOk_cons.2 ⟨first, fun d member => ?_, ok'⟩, ?_, ?_⟩
      · have start : d.pmc ∈ chunks.map MemblockChunk.pmc :=
          same ▸ List.mem_map_of_mem member
        obtain ⟨c, member', start⟩ := List.mem_map.1 start
        have apart := away c member'
        unfold Away at apart ⊢
        rwa [← start]
      · exact (marks.append_left _).trans List.perm_middle
      · rw [List.map_cons, List.map_cons, same]

theorem marked_of_free (ok : ChunkOk pmc) (free : pmc.cFree = memblocksPerChunk) :
    marked pmc = [] := by
  have all : ∀ bit ∈ pmc.achBitmap, false = bit := by
    refine List.count_eq_length.1 ?_
    rw [← ok.counts, free, ok.bits]
  rw [List.eq_nil_iff_forall_not_mem]
  intro pmb there
  obtain ⟨i, -, bit, -⟩ := mem_marked.1 there
  have clear := all true (List.mem_of_getElem? bit)
  cases clear

theorem minChunks_spec (ok : PoolOk chunks) :
    PoolOk (minChunks chunks) ∧ allocated (minChunks chunks) = allocated chunks := by
  cases chunks with
  | nil => exact ⟨ok, rfl⟩
  | cons pmc chunks =>
    obtain ⟨first, away, rest⟩ := poolOk_cons.1 ok
    refine ⟨poolOk_cons.2 ⟨first, fun c there => away c (List.mem_of_mem_filter there),
      fun c there => rest.chunk c (List.mem_of_mem_filter there), rest.away.filter _⟩, ?_⟩
    rw [minChunks, allocated_cons, allocated_cons]
    congr 1
    have oks := rest.chunk
    clear ok away rest first
    induction chunks with
    | nil => rfl
    | cons c chunks ih =>
      have ih := ih fun d there => oks d (List.mem_cons_of_mem _ there)
      rw [List.filter_cons]
      split_ifs with kept
      · rw [allocated_cons, allocated_cons, ih]
      · have free : c.cFree = memblocksPerChunk := by simpa using kept
        rw [allocated_cons, marked_of_free (oks c List.mem_cons_self) free, ih]
        rfl

end Pool

/-! ## Counting free entries -/

def freeEntries (chunks : List MemblockChunk) : ℕ := (chunks.map MemblockChunk.cFree).sum

theorem allocateIn_entries {pmc : MemblockChunk} (ok : ChunkOk pmc) (free : pmc.cFree ≠ 0)
    {pmc' : MemblockChunk} {pmb : ℕ} (done : allocateIn pmc = some (pmc', pmb)) :
    pmc'.cFree + 1 = pmc.cFree := by
  obtain ⟨i, -, same⟩ := Option.map_eq_some_iff.1 done
  obtain ⟨rfl, -⟩ := Prod.mk.inj same
  have most := count_le ok
  unfold memblocksPerChunk at most
  have less : sub32 pmc.cFree 1 = pmc.cFree - 1 := sub32_of_le (by omega) (by omega)
  show sub32 pmc.cFree 1 + 1 = _
  omega

theorem allocate_entries {chunks chunks' : List MemblockChunk} (ok : PoolOk chunks)
    {rmalloc : Option ℕ} (fresh : ∀ pmc, rmalloc = some pmc → Fresh chunks pmc) {pmb : Option ℕ}
    (done : swpAllocateMemblock rmalloc chunks = some (chunks', pmb)) :
    (freeEntries chunks ≠ 0 → pmb ≠ none ∧ freeEntries chunks' + 1 = freeEntries chunks) ∧
      (freeEntries chunks = 0 → (pmb = none ↔ rmalloc = none) ∧
        freeEntries chunks' = if rmalloc = none then 0 else memblocksPerChunk - 1) := by
  induction chunks generalizing chunks' with
  | nil =>
    refine ⟨fun some_ => absurd rfl some_, fun _ => ?_⟩
    cases rmalloc with
    | none =>
      cases done
      exact ⟨Iff.rfl, rfl⟩
    | some pmc =>
      rw [swpAllocateMemblock] at done
      obtain ⟨⟨c, node⟩, allocated_, same⟩ := Option.map_eq_some_iff.1 done
      obtain ⟨rfl, rfl⟩ := Prod.mk.inj same
      have entries := allocateIn_entries (newChunk_ok (fresh pmc rfl).1)
        (show memblocksPerChunk ≠ 0 by decide) allocated_
      refine ⟨by simp, ?_⟩
      rw [if_neg (by simp)]
      show c.cFree + 0 = memblocksPerChunk - 1
      have whole : (newChunk pmc).cFree = memblocksPerChunk := rfl
      omega
  | cons pmc chunks ih =>
    obtain ⟨first, away, rest⟩ := poolOk_cons.1 ok
    have sum : freeEntries (pmc :: chunks) = pmc.cFree + freeEntries chunks := rfl
    rw [swpAllocateMemblock] at done
    split_ifs at done with full
    · obtain ⟨⟨cs, node⟩, below, same⟩ := Option.map_eq_some_iff.1 done
      obtain ⟨rfl, rfl⟩ := Prod.mk.inj same
      have sum' : freeEntries (pmc :: cs) = pmc.cFree + freeEntries cs := rfl
      have ih := ih rest (fun c h => ⟨(fresh c h).1, fun d there =>
        (fresh c h).2 d (List.mem_cons_of_mem _ there)⟩) below
      rw [sum, sum', full, Nat.zero_add, Nat.zero_add]
      exact ih
    · obtain ⟨⟨c, node⟩, allocated_, same⟩ := Option.map_eq_some_iff.1 done
      obtain ⟨rfl, rfl⟩ := Prod.mk.inj same
      have entries := allocateIn_entries first full allocated_
      have sum' : freeEntries ((c, node).1 :: chunks) = c.cFree + freeEntries chunks := rfl
      refine ⟨fun _ => ⟨by simp, by omega⟩, fun none_ => absurd none_ (by omega)⟩

end Odin32.MemblockPool
