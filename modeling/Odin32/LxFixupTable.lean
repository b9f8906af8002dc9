import Odin32.LxFixupRecords

/-! # The layouts of fixup records

A record is described by its fields and by which of them are wide. The stores of the three
functions leave the bytes of one record behind the table, and the reader gets its fields back,
as many of their low bytes as the layout holds. -/

set_option autoImplicit false

namespace Odin32.LxFixupRecords
open ByteMemory ByteTable Word LxNames LxPages LxFixups LxEntries

inductive RefType where
  | internal | ordinal | name
deriving DecidableEq, Repr

def RefType.nrr : RefType → UInt8
  | .internal => nrrint
  | .ordinal => nrrord
  | .name => nrrnam

def RefType.target : RefType → ℕ → ℕ → Target
  | .internal => .object
  | .ordinal => .ordinal
  | .name => .name

def RefType.flags (ref : RefType) (wideMod wideTarget : Bool) : UInt8 :=
  let flags := if wideMod then ref.nrr ||| nr16ObjMod else ref.nrr
  if wideTarget then flags ||| nr32BitOff else flags

theorem RefType.flags_spec (ref : RefType) (wideMod wideTarget : Bool) :
    (ref.flags wideMod wideTarget &&& nr16ObjMod ≠ 0 ↔ wideMod = true) ∧
      (ref.flags wideMod wideTarget &&& nr32BitOff ≠ 0 ↔ wideTarget = true) ∧
      ref.flags wideMod wideTarget &&& 0x03 = ref.nrr ∧
      ref.flags wideMod wideTarget &&& nr8BitOrd = 0 ∧
      ref.flags wideMod wideTarget &&& 0x2c = 0 := by
  cases ref <;> cases wideMod <;> cases wideTarget <;> decide

structure Record where
  ref : RefType
  wideMod : Bool
  wideTarget : Bool
  soff : ℕ
  objmod : ℕ
  target : ℕ
deriving DecidableEq, Repr

namespace Record

def flags (r : Record) : UInt8 := r.ref.flags r.wideMod r.wideTarget

def cbMod (r : Record) : ℕ := if r.wideMod then 2 else 1

def cbTarget (r : Record) : ℕ := if r.wideTarget then 4 else 2

def size (r : Record) : ℕ := 4 + r.cbMod + r.cbTarget

def bytes (r : Record) : List UInt8 :=
  nroff32 :: r.flags :: (le 2 r.soff ++ le r.cbMod r.objmod ++ le r.cbTarget r.target)

/-- What the record says when it is read. -/
def fixup (r : Record) : Fixup where
  source := short (r.soff % 0x10000)
  target := r.ref.target (r.objmod % 0x100 ^ r.cbMod) (r.target % 0x100 ^ r.cbTarget)

/-- The copy for the next page. -/
def moved (r : Record) : Record := { r with soff := r.soff % 0x10000 + 0xf000 }

@[simp] theorem length_bytes (r : Record) : r.bytes.length = r.size := by
  simp only [bytes, size, List.length_cons, List.length_append, length_le]
  omega

theorem size_le (r : Record) : 7 ≤ r.size ∧ r.size ≤ 10 := by
  simp only [size, cbMod, cbTarget]
  split <;> split <;> omega

theorem flags_wideMod (r : Record) : r.flags &&& nr16ObjMod ≠ 0 ↔ r.wideMod = true :=
  (r.ref.flags_spec r.wideMod r.wideTarget).1

theorem fillRecord_table (r : Record) {b : Block} {off : ℕ} {content : List UInt8}
    (table : b.Table off content) (room : off + 10 ≤ b.allocated) :
    (fillRecord r.flags r.soff r.objmod r.target off b).Table (off + r.size)
      (content ++ r.bytes) := by
  have head : ((b.put off [nroff32]).put (off + 1) [r.flags]).Table (off + 2)
      (content ++ [nroff32] ++ [r.flags]) :=
    (table.put (l := [nroff32]) (by simp only [List.length_singleton]; omega)).put
      (by simp only [List.length_singleton, Block.put]; omega)
  have source := head.put (l := le 2 r.soff)
    (by simp only [length_le, Block.put]; omega)
  have objmod := source.put (l := le 2 r.objmod)
    (by simp only [length_le, Block.put]; omega)
  have wide : le 4 r.target = le r.cbTarget r.target ++
      le (4 - r.cbTarget) (r.target / 0x100 ^ r.cbTarget) := by
    rw [← le_add]
    congr 1
    simp only [cbTarget]
    split <;> rfl
  rw [length_le] at source
  rw [length_le, length_le] at objmod
  have whole : content ++ r.bytes = content ++ [nroff32] ++ [r.flags] ++ le 2 r.soff ++
      le r.cbMod r.objmod ++ le r.cbTarget r.target := by
    simp [bytes]
  have filled : ∃ back off', (fillRecord r.flags r.soff r.objmod r.target off b).Table off'
      (content ++ r.bytes ++ back) := by
    rw [whole, fillRecord]
    by_cases big : r.wideMod = true
    · rw [if_pos (r.flags_wideMod.2 big)]
      have target := objmod.put (l := le 4 r.target)
        (by simp only [length_le, Block.put]; omega)
      rw [wide, ← List.append_assoc] at target
      rw [show r.cbMod = 2 from if_pos big]
      rw [← wide] at target
      exact ⟨_, _, target⟩
    · rw [if_neg (fun h => big (r.flags_wideMod.1 h))]
      have split : le 2 r.objmod = le 1 r.objmod ++ le 1 (r.objmod / 0x100 ^ 1) := le_add 1 1 _
      rw [split, ← List.append_assoc] at objmod
      have shrunk := objmod.shrink
      have len : (content ++ [nroff32] ++ [r.flags] ++ le 2 r.soff ++ le 1 r.objmod).length =
          off + 5 := by
        simp only [List.length_append, table.length, List.length_singleton, length_le]
      rw [len, ← split] at shrunk
      have target := shrunk.put (l := le 4 r.target)
        (by simp only [length_le, Block.put]; omega)
      rw [wide, ← List.append_assoc] at target
      rw [show r.cbMod = 1 from if_neg big]
      rw [← wide] at target
      exact ⟨_, _, target⟩
  obtain ⟨back, off', filled⟩ := filled
  have shrunk := filled.shrink
  rwa [List.length_append, length_bytes, table.length] at shrunk

theorem crossPageRecord_bytes (r : Record) : crossPageRecord r.bytes = r.moved.bytes := by
  have source : ofLe (((le 2 r.soff) ++ le r.cbMod r.objmod ++
      le r.cbTarget r.target).take 2) = r.soff % 0x10000 := by
    rw [List.append_assoc, List.take_append_of_le_length (by simp),
      List.take_of_length_le (by simp), ofLe_le]
    rfl
  have behind : ((le 2 r.soff) ++ le r.cbMod r.objmod ++ le r.cbTarget r.target).drop 2 =
      le r.cbMod r.objmod ++ le r.cbTarget r.target := by
    rw [List.append_assoc, List.drop_append_of_le_length (by simp),
      List.drop_of_length_le (by simp), List.nil_append]
  show [nroff32, r.flags] ++ le 2 (ofLe (List.take 2 (le 2 r.soff ++ le r.cbMod r.objmod ++
    le r.cbTarget r.target)) + 0xf000) ++ List.drop 2 (le 2 r.soff ++ le r.cbMod r.objmod ++
    le r.cbTarget r.target) = _
  rw [source, behind, List.append_assoc]
  simp only [bytes, List.append_assoc]
  rfl

theorem decodeRecord_bytes (r : Record) (behind : List UInt8) :
    decodeRecord (r.bytes ++ behind) = some (r.fixup, behind) := by
  obtain ⟨-, wideTarget, ref, byte, plain⟩ := r.ref.flags_spec r.wideMod r.wideTarget
  rw [← flags] at wideTarget ref byte plain
  have cbMod : (if r.flags &&& nr16ObjMod ≠ 0 then 2 else 1) = r.cbMod :=
    if_congr r.flags_wideMod rfl rfl
  have cbTarget : (if r.flags &&& 0x03 = nrrord ∧ r.flags &&& nr8BitOrd ≠ 0 then 1
      else if r.flags &&& nr32BitOff ≠ 0 then 4 else 2) = r.cbTarget := by
    rw [if_neg (fun h => h.2 byte)]
    exact if_congr wideTarget rfl rfl
  set fields := le 2 r.soff ++ le r.cbMod r.objmod ++ le r.cbTarget r.target with named
  have len : fields.length = 2 + r.cbMod + r.cbTarget := by
    simp only [named, List.length_append, length_le]
  have source : (fields ++ behind).take 2 = le 2 r.soff := by
    rw [named, List.append_assoc, List.append_assoc, List.take_append_of_le_length (by simp),
      List.take_of_length_le (by simp)]
  have objmod : ((fields ++ behind).drop 2).take r.cbMod = le r.cbMod r.objmod := by
    rw [named, List.append_assoc, List.append_assoc, List.drop_append_of_le_length (by simp),
      List.drop_of_length_le (by simp), List.nil_append, List.take_append_of_le_length (by simp),
      List.take_of_length_le (by simp)]
  have target : ((fields ++ behind).drop (2 + r.cbMod)).take r.cbTarget =
      le r.cbTarget r.target := by
    rw [named, List.append_assoc, List.drop_append_of_le_length (by simp),
      List.drop_of_length_le (by simp), List.nil_append, List.take_append_of_le_length (by simp),
      List.take_of_length_le (by simp)]
  have rest : (fields ++ behind).drop (2 + r.cbMod + r.cbTarget) = behind := by
    rw [← len, List.drop_left]
  have enough : ¬(nroff32 ≠ nroff32 ∨ r.flags &&& 0x2c ≠ 0 ∨
      (fields ++ behind).length < 2 + r.cbMod + r.cbTarget) := by
    rw [List.length_append, len]
    rintro (h | h | h)
    · exact h rfl
    · exact h plain
    · omega
  rw [bytes, List.cons_append, List.cons_append, ← named]
  simp only [decodeRecord, cbMod, cbTarget]
  rw [if_neg enough, source, objmod, target, rest, ref, ofLe_le, ofLe_le, ofLe_le]
  rcases hr : r.ref with _ | _ | _ <;> simp [RefType.nrr, nrrint, nrrord, nrrnam, fixup,
    RefType.target, hr]

theorem decodeRecords_flatMap (rs : List Record) {rounds : ℕ}
    (enough : (rs.flatMap bytes).length ≤ rounds) :
    decodeRecords rounds (rs.flatMap bytes) = some (rs.map fixup) := by
  induction rs generalizing rounds with
  | nil => cases rounds <;> rfl
  | cons r rs ih =>
    have size := r.size_le
    rw [List.flatMap_cons, List.length_append, length_bytes] at enough
    obtain ⟨rounds, rfl⟩ : ∃ n, rounds = n + 1 := Nat.exists_eq_succ_of_ne_zero (by omega)
    have first := decodeRecord_bytes r (rs.flatMap bytes)
    rw [List.flatMap_cons]
    rw [bytes, List.cons_append] at first ⊢
    have rest : decodeRecords rounds (rs.flatMap bytes) = some (rs.map fixup) := ih (by omega)
    rw [decodeRecords, first]
    simp [rest]

end Record

end Odin32.LxFixupRecords
