import Mathlib.Data.Set.Insert
import Mathlib.Tactic.Common

/-! # Thread local storage indices

`TlsAlloc` and `TlsFree` keep the indices of a process in two words of bits, and clear
the slot of the calling thread. A shift takes its count modulo the width of the word, as
the processor does. -/

set_option autoImplicit false

namespace Odin32.Tls

def tlsMinimumAvailable : ℕ := 64
def tlsOutOfIndexes : ℕ := 0xffffffff

/-- The members of the process database that hold the indices in use. -/
structure Pdb where
  tlsBits : Fin 2 → BitVec 32

/-- The slots of a thread. -/
structure Teb where
  tlsArray : ℕ → ℕ

def Pdb.setBits (pdb : Pdb) (tibidx : Fin 2) (bits : BitVec 32) : Pdb :=
  { pdb with tlsBits := fun k => if k = tibidx then bits else pdb.tlsBits k }

def Teb.setSlot (teb : Teb) (index val : ℕ) : Teb :=
  { teb with tlsArray := fun i => if i = index then val else teb.tlsArray i }

def tlsAlloc (pdb : Pdb) (teb : Teb) : ℕ × Pdb × Teb :=
  if pdb.tlsBits 0 = 0xffffffff#32 ∧ pdb.tlsBits 1 = 0xffffffff#32 then
    (tlsOutOfIndexes, pdb, teb)
  else
    let tibidx : Fin 2 := if pdb.tlsBits 0 = 0xffffffff#32 then 1 else 0
    match (List.range 32).find? fun i => pdb.tlsBits tibidx &&& 1#32 <<< i == 0#32 with
    | some i =>
      let index := tibidx * 32 + i
      (index, pdb.setBits tibidx (pdb.tlsBits tibidx ||| 1#32 <<< i), teb.setSlot index 0)
    | none => (tlsOutOfIndexes, pdb, teb)

def tlsFree (pdb : Pdb) (teb : Teb) (index : ℕ) : Bool × Pdb × Teb :=
  if tlsMinimumAvailable ≤ index then (false, pdb, teb)
  else
    let tlsidx : Fin 2 := if 32 < index then 1 else 0
    let mask := 1#32 <<< (index % 32)
    if pdb.tlsBits tlsidx &&& mask != 0#32 then
      (true, pdb.setBits tlsidx (pdb.tlsBits tlsidx &&& ~~~mask), teb.setSlot index 0)
    else (false, pdb, teb)

def tlsGetValue (teb : Teb) (index : ℕ) : ℕ :=
  if tlsMinimumAvailable ≤ index then 0 else teb.tlsArray index

def tlsSetValue (teb : Teb) (index val : ℕ) : Bool × Teb :=
  if tlsMinimumAvailable ≤ index then (false, teb) else (true, teb.setSlot index val)

/-- The bit of an index is set. -/
def Pdb.allocated (pdb : Pdb) (index : ℕ) : Bool :=
  if index < 32 then (pdb.tlsBits 0).getLsbD index else (pdb.tlsBits 1).getLsbD (index - 32)

/-! ## Bits of a word -/

theorem and_bit_eq_zero (bits : BitVec 32) {i : ℕ} (hi : i < 32) :
    (bits &&& 1#32 <<< i == 0#32) = !bits.getLsbD i := by
  rw [← BitVec.twoPow_eq, BitVec.and_twoPow]
  have nonzero : BitVec.twoPow 32 i ≠ 0#32 := by
    intro zero
    have bit := congrArg (fun b => b.getLsbD i) zero
    simp [hi] at bit
  cases bits.getLsbD i <;> simp [nonzero]

theorem getLsbD_set (bits : BitVec 32) {i : ℕ} (hi : i < 32) (j : ℕ) :
    (bits ||| 1#32 <<< i).getLsbD j = (bits.getLsbD j || decide (j = i)) := by
  rw [← BitVec.twoPow_eq, BitVec.getLsbD_or, BitVec.getLsbD_twoPow]
  simp [hi, eq_comm]

theorem getLsbD_clear (bits : BitVec 32) {i : ℕ} (hi : i < 32) (j : ℕ) :
    (bits &&& ~~~(1#32 <<< i)).getLsbD j = (bits.getLsbD j && !decide (j = i)) := by
  rw [← BitVec.twoPow_eq, BitVec.getLsbD_and, BitVec.getLsbD_not, BitVec.getLsbD_twoPow]
  by_cases inside : j < 32
  · simp [hi, inside, eq_comm]
  · simp [BitVec.getLsbD_of_ge bits j (by omega)]

theorem full_iff (bits : BitVec 32) : bits = 0xffffffff#32 ↔ ∀ i < 32, bits.getLsbD i = true := by
  have ones : 0xffffffff#32 = BitVec.allOnes 32 := by decide
  rw [ones]
  constructor
  · rintro rfl i hi
    rw [BitVec.getLsbD_allOnes, decide_eq_true hi]
  · intro all
    apply BitVec.eq_of_getLsbD_eq
    intro i hi
    rw [all i hi, BitVec.getLsbD_allOnes, decide_eq_true hi]

theorem allocated_setBits_zero (pdb : Pdb) (bits : BitVec 32) (j : ℕ) :
    (pdb.setBits 0 bits).allocated j = if j < 32 then bits.getLsbD j else pdb.allocated j := by
  unfold Pdb.allocated Pdb.setBits
  split
  · rfl
  · simp

theorem allocated_setBits_one (pdb : Pdb) (bits : BitVec 32) (j : ℕ) :
    (pdb.setBits 1 bits).allocated j =
      if j < 32 then pdb.allocated j else bits.getLsbD (j - 32) := by
  unfold Pdb.allocated Pdb.setBits
  split
  · next low => simp [low]
  · rfl

theorem allocated_ge (pdb : Pdb) {j : ℕ} (h : 64 ≤ j) : pdb.allocated j = false := by
  unfold Pdb.allocated
  rw [if_neg (by omega)]
  exact BitVec.getLsbD_of_ge _ _ (by omega)

/-! ## The calls -/

theorem find_free (bits : BitVec 32) (notFull : bits ≠ 0xffffffff#32) :
    ∃ i < 32, ((List.range 32).find? fun i => bits &&& 1#32 <<< i == 0#32) = some i ∧
      bits.getLsbD i = false := by
  rcases found : (List.range 32).find? fun i => bits &&& 1#32 <<< i == 0#32 with _ | i
  · rw [List.find?_eq_none] at found
    exfalso
    apply notFull
    rw [full_iff]
    intro i hi
    have taken := found i (List.mem_range.mpr hi)
    rw [and_bit_eq_zero bits hi] at taken
    simpa using taken
  · have hi := List.mem_range.mp (List.mem_of_find?_eq_some found)
    have free := List.find?_some found
    rw [and_bit_eq_zero bits hi] at free
    exact ⟨i, hi, rfl, by simpa using free⟩

theorem tlsAlloc_cases (pdb : Pdb) (teb : Teb) :
    ((∀ j < 64, pdb.allocated j = true) ∧ tlsAlloc pdb teb = (tlsOutOfIndexes, pdb, teb)) ∨
    ∃ index < 64, pdb.allocated index = false ∧ ∃ pdb',
      tlsAlloc pdb teb = (index, pdb', teb.setSlot index 0) ∧
      ∀ j, pdb'.allocated j = (pdb.allocated j || decide (j = index)) := by
  unfold tlsAlloc
  split
  · next full =>
    left
    refine ⟨?_, rfl⟩
    intro j hj
    unfold Pdb.allocated
    split
    · exact (full_iff _).mp full.1 j (by omega)
    · exact (full_iff _).mp full.2 (j - 32) (by omega)
  · next room =>
    right
    dsimp only
    by_cases first : pdb.tlsBits 0 = 0xffffffff#32
    · rw [if_pos first]
      obtain ⟨i, hi, found, free⟩ := find_free (pdb.tlsBits 1) (fun second => room ⟨first, second⟩)
      rw [found]
      refine ⟨32 + i, by omega, ?_, _, rfl, ?_⟩
      · unfold Pdb.allocated
        rw [if_neg (by omega), Nat.add_sub_cancel_left]
        exact free
      · intro j
        rw [allocated_setBits_one, getLsbD_set _ hi]
        unfold Pdb.allocated
        split
        · simp [show ¬j = 32 + i by omega]
        · rw [decide_eq_decide.mpr (show j - 32 = i ↔ j = 32 + i by omega)]
    · rw [if_neg first]
      obtain ⟨i, hi, found, free⟩ := find_free (pdb.tlsBits 0) first
      rw [found]
      have index : ((0 : Fin 2) : ℕ) * 32 + i = i := by simp
      refine ⟨i, by omega, ?_, _, by dsimp only; rw [index], ?_⟩
      · unfold Pdb.allocated
        rw [if_pos hi]
        exact free
      · intro j
        rw [allocated_setBits_zero, getLsbD_set _ hi]
        unfold Pdb.allocated
        split
        · rfl
        · simp [show ¬j = i by omega]

theorem tlsAlloc_spec {pdb pdb' : Pdb} {teb teb' : Teb} {index : ℕ}
    (h : tlsAlloc pdb teb = (index, pdb', teb')) :
    (index = tlsOutOfIndexes ∧ (∀ j < 64, pdb.allocated j = true) ∧ pdb' = pdb ∧ teb' = teb) ∨
    (index < 64 ∧ pdb.allocated index = false ∧
      (∀ j, pdb'.allocated j = (pdb.allocated j || decide (j = index))) ∧
      teb' = teb.setSlot index 0) := by
  rcases tlsAlloc_cases pdb teb with ⟨full, result⟩ | ⟨i, hi, free, pdb₁, result, after⟩
  · rw [result] at h
    obtain ⟨rfl, rfl, rfl⟩ : tlsOutOfIndexes = index ∧ pdb = pdb' ∧ teb = teb' := by simpa using h
    exact .inl ⟨rfl, full, rfl, rfl⟩
  · rw [result] at h
    obtain ⟨rfl, rfl, rfl⟩ : i = index ∧ pdb₁ = pdb' ∧ teb.setSlot i 0 = teb' := by simpa using h
    exact .inr ⟨hi, free, after, rfl⟩

/-- The index whose bit `TlsFree` goes by: the first index of the second word is taken
for one of the first word. -/
def freedIndex (index : ℕ) : ℕ := if index = 32 then 0 else index

theorem tlsFree_spec (pdb : Pdb) (teb : Teb) (index : ℕ) :
    (tlsFree pdb teb index).1 = pdb.allocated (freedIndex index) ∧
    (∀ j, (tlsFree pdb teb index).2.1.allocated j =
      (pdb.allocated j && !decide (j = freedIndex index))) ∧
    (tlsFree pdb teb index).2.2 =
      if pdb.allocated (freedIndex index) then teb.setSlot index 0 else teb := by
  -- a call that changes nothing, because the bit is clear
  have clear : pdb.allocated (freedIndex index) = false →
      ∀ j, pdb.allocated j = (pdb.allocated j && !decide (j = freedIndex index)) := by
    intro free j
    by_cases here : j = freedIndex index
    · rw [here, free]
      rfl
    · simp [here]
  by_cases out : 64 ≤ index
  · have same : freedIndex index = index := if_neg (by omega)
    have free := allocated_ge pdb out
    rw [← same] at free
    unfold tlsFree tlsMinimumAvailable
    rw [if_pos out, free]
    exact ⟨rfl, clear free, rfl⟩
  unfold tlsFree tlsMinimumAvailable
  rw [if_neg out]
  dsimp only
  have bit := Nat.mod_lt index (show 0 < 32 by decide)
  by_cases high : 32 < index
  · have same : freedIndex index = index := if_neg (by omega)
    have here : pdb.allocated index = (pdb.tlsBits 1).getLsbD (index % 32) := by
      unfold Pdb.allocated
      rw [if_neg (by omega)]
      congr 1
      omega
    rw [same] at clear ⊢
    rw [if_pos high, bne, and_bit_eq_zero _ bit, Bool.not_not, ← here]
    cases set : pdb.allocated index with
    | false => exact ⟨rfl, clear set, rfl⟩
    | true =>
      refine ⟨rfl, ?_, rfl⟩
      intro j
      rw [if_pos rfl]
      dsimp only
      rw [allocated_setBits_one, getLsbD_clear _ bit]
      unfold Pdb.allocated
      split
      · simp [show ¬j = index by omega]
      · rw [decide_eq_decide.mpr (show j - 32 = index % 32 ↔ j = index by omega)]
  · have low : freedIndex index = index % 32 := by
      unfold freedIndex
      split <;> omega
    have here : pdb.allocated (index % 32) = (pdb.tlsBits 0).getLsbD (index % 32) := by
      unfold Pdb.allocated
      rw [if_pos bit]
    rw [low] at clear ⊢
    rw [if_neg high, bne, and_bit_eq_zero _ bit, Bool.not_not, ← here]
    cases set : pdb.allocated (index % 32) with
    | false => exact ⟨rfl, clear set, rfl⟩
    | true =>
      refine ⟨rfl, ?_, rfl⟩
      intro j
      rw [if_pos rfl]
      dsimp only
      rw [allocated_setBits_zero, getLsbD_clear _ bit]
      unfold Pdb.allocated
      split
      · rfl
      · simp [show ¬j = index % 32 by omega]

/-! ## Runs -/

inductive Op where
  | tlsAlloc
  | tlsFree (index : ℕ)
deriving DecidableEq, Repr

/-- What is to be seen of a call: its return value, and the words afterwards. `live` are
the indices allocated and not yet freed. -/
def RunOk (pdb : Pdb) (teb : Teb) (live : Set ℕ) : List Op → Prop
  | [] => ∀ j, pdb.allocated j = true ↔ j ∈ live
  | .tlsAlloc :: ops =>
    let (index, pdb', teb') := tlsAlloc pdb teb
    (∀ j, pdb.allocated j = true ↔ j ∈ live) ∧
    (index < 64 ∧ index ∉ live ∨ index = tlsOutOfIndexes ∧ ∀ j < 64, j ∈ live) ∧
    RunOk pdb' teb' (if index < 64 then insert index live else live) ops
  | .tlsFree i :: ops =>
    let (freed, pdb', teb') := tlsFree pdb teb i
    (∀ j, pdb.allocated j = true ↔ j ∈ live) ∧ (freed = true ↔ i ∈ live) ∧
    RunOk pdb' teb' (live \ {i}) ops

/-- No step frees the first index of the second word while it, or the first index of all,
is allocated. -/
def StepsOk (pdb : Pdb) (teb : Teb) : List Op → Prop
  | [] => True
  | .tlsAlloc :: ops => StepsOk (tlsAlloc pdb teb).2.1 (tlsAlloc pdb teb).2.2 ops
  | .tlsFree i :: ops =>
    (i = 32 → pdb.allocated 0 = false ∧ pdb.allocated 32 = false) ∧
    StepsOk (tlsFree pdb teb i).2.1 (tlsFree pdb teb i).2.2 ops

instance decidableStepsOk : (pdb : Pdb) → (teb : Teb) → (ops : List Op) →
    Decidable (StepsOk pdb teb ops)
  | _, _, [] => .isTrue trivial
  | pdb, teb, .tlsAlloc :: ops =>
    decidableStepsOk (tlsAlloc pdb teb).2.1 (tlsAlloc pdb teb).2.2 ops
  | pdb, teb, .tlsFree i :: ops =>
    have := decidableStepsOk (tlsFree pdb teb i).2.1 (tlsFree pdb teb i).2.2 ops
    inferInstanceAs (Decidable ((i = 32 → pdb.allocated 0 = false ∧ pdb.allocated 32 = false) ∧
      StepsOk (tlsFree pdb teb i).2.1 (tlsFree pdb teb i).2.2 ops))

theorem tlsFree_right_iff {pdb : Pdb} {teb : Teb} {live : Set ℕ} {index : ℕ}
    (all : ∀ j, pdb.allocated j = true ↔ j ∈ live) :
    (((tlsFree pdb teb index).1 = true ↔ index ∈ live) ∧
      ∀ j, (tlsFree pdb teb index).2.1.allocated j = true ↔ j ∈ live \ {index}) ↔
    (index = 32 → pdb.allocated 0 = false ∧ pdb.allocated 32 = false) := by
  obtain ⟨freed, after, -⟩ := tlsFree_spec pdb teb index
  by_cases edge : index = 32
  · subst edge
    rw [show freedIndex 32 = 0 from rfl] at freed after
    constructor
    · rintro ⟨returned, left⟩ -
      have second : pdb.allocated 32 = false := by
        by_contra set
        -- the index stays allocated, although it was freed
        have stays := (left 32).mp (by rw [after]; simpa using set)
        exact stays.2 rfl
      refine ⟨?_, second⟩
      rw [freed, ← all, second] at returned
      simpa using returned
    · intro clear
      obtain ⟨first, second⟩ := clear rfl
      constructor
      · rw [freed, ← all, first, second]
      · intro j
        rw [after, Set.mem_sdiff, ← all, Set.mem_singleton_iff]
        by_cases zero : j = 0
        · simp [zero, first]
        · by_cases high : j = 32
          · simp [high, second]
          · simp [zero, high]
  · have same : freedIndex index = index := if_neg edge
    rw [same] at freed after
    refine iff_of_true ⟨?_, ?_⟩ (fun h => absurd h edge)
    · rw [freed, all]
    · intro j
      rw [after, Set.mem_sdiff, ← all, Set.mem_singleton_iff]
      simp

theorem runOk_iff {pdb : Pdb} {teb : Teb} {live : Set ℕ} {ops : List Op}
    (all : ∀ j, pdb.allocated j = true ↔ j ∈ live) :
    RunOk pdb teb live ops ↔ StepsOk pdb teb ops := by
  induction ops generalizing pdb teb live with
  | nil => exact iff_of_true all trivial
  | cons op ops ih =>
    cases op with
    | tlsAlloc =>
      rcases result : tlsAlloc pdb teb with ⟨index, pdb', teb'⟩
      simp only [RunOk, StepsOk, result]
      rw [and_iff_right all]
      rcases tlsAlloc_spec result with ⟨rfl, full, rfl, rfl⟩ | ⟨hi, free, after, rfl⟩
      · have out : ¬tlsOutOfIndexes < 64 := by decide
        rw [if_neg out, and_iff_right (.inr ⟨rfl, fun j hj => (all j).mp (full j hj)⟩)]
        exact ih all
      · have new : index ∉ live := by
          rw [← all, free]
          decide
        rw [if_pos hi, and_iff_right (.inl ⟨hi, new⟩)]
        apply ih
        intro j
        rw [after, Set.mem_insert_iff, ← all]
        simp [or_comm]
    | tlsFree i =>
      have right := @tlsFree_right_iff pdb teb live i all
      simp only [RunOk, StepsOk]
      rw [and_iff_right all]
      constructor
      · rintro ⟨returned, rest⟩
        have left : ∀ j, (tlsFree pdb teb i).2.1.allocated j = true ↔ j ∈ live \ {i} := by
          cases ops with
          | nil => exact rest
          | cons op ops => cases op <;> exact rest.1
        exact ⟨right.mp ⟨returned, left⟩, (ih left).mp rest⟩
      · rintro ⟨ok, rest⟩
        obtain ⟨returned, left⟩ := right.mpr ok
        exact ⟨returned, (ih left).mpr rest⟩

/-- The words of a new process. -/
def newPdb : Pdb := ⟨fun _ => 0#32⟩

theorem newPdb_free (j : ℕ) : newPdb.allocated j = true ↔ j ∈ (∅ : Set ℕ) := by
  have clear : newPdb.allocated j = false := by
    unfold Pdb.allocated newPdb
    simp
  simp [clear]

/-- From a new process, all calls go right in exactly the runs that do not take the first
index of the second word for the first of all. -/
theorem run_tlsIndices_iff (teb : Teb) (ops : List Op) :
    RunOk newPdb teb ∅ ops ↔ StepsOk newPdb teb ops :=
  runOk_iff newPdb_free

/-- One index is allocated, and another that never was is freed: the call succeeds and
frees the first. -/
theorem freeOther_not_runOk : ¬∀ (teb : Teb) (ops : List Op), RunOk newPdb teb ∅ ops := by
  intro all
  have run := all ⟨fun _ => 0⟩ [.tlsAlloc, .tlsFree 32]
  rw [runOk_iff newPdb_free] at run
  exact absurd run (by decide)

end Odin32.Tls
