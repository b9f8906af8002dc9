import Odin32.ByteMemory
import Mathlib.Data.List.GetD

/-! # Tables of bytes

A table that grows at its end lies in a block of the C library, with the room the library
gave it. Sizes are numbers: no block that the library can give is so large that a sum of them
leaves a `ULONG`. The records of a name table are a length, so many characters, and a trailer
whose size is the same in all of them. -/

set_option autoImplicit false

namespace Odin32.ByteTable
open ByteMemory

/-- The `n` bytes from `a` on. -/
def slice (m : Mem) (a n : ℕ) : List UInt8 := (List.range n).map fun k => m (a + k)

/-- The low `n` bytes of a number. -/
def le (n v : ℕ) : List UInt8 := (List.range n).map (byteOf v)

def ofLe : List UInt8 → ℕ
  | [] => 0
  | b :: rest => b.toNat + 0x100 * ofLe rest

def store (m : Mem) (a : ℕ) (l : List UInt8) : Mem :=
  fun b => if a ≤ b then l.getD (b - a) (m b) else m b

structure Block where
  bytes : Mem
  /-- The size of the block, and zero while there is none. -/
  allocated : ℕ
  /-- Something was stored outside of the block. -/
  overrun : Bool

/-- No block yet; the library will hand out memory that holds `fresh`. -/
def Block.none (fresh : Mem) : Block := ⟨fresh, 0, false⟩

/-- The size that is asked for: of a first block, or of one that replaces the block. -/
def Block.request (initsize addsize : ℕ) (b : Block) : ℕ :=
  if b.allocated = 0 then initsize else b.allocated + addsize

/-- `AllocateMoreMemory`, with whether the library has the memory if it is asked. -/
def Block.allocateMore (needed initsize addsize : ℕ) (room : Bool) (b : Block) : Option Block :=
  if needed ≤ b.allocated then some b
  else if room then some { b with allocated := b.request initsize addsize }
  else Option.none

def Block.put (b : Block) (a : ℕ) (l : List UInt8) : Block where
  bytes := store b.bytes a l
  allocated := b.allocated
  overrun := b.overrun || decide (b.allocated < a + l.length)

@[simp] theorem length_slice (m : Mem) (a n : ℕ) : (slice m a n).length = n := by
  simp [slice]

theorem slice_add (m : Mem) (a k n : ℕ) : slice m a (k + n) = slice m a k ++ slice m (a + k) n := by
  simp only [slice, List.range_add, List.map_append, List.map_map]
  congr 1
  exact List.map_congr_left fun _ _ => congrArg m (Nat.add_assoc a k _).symm

theorem slice_one (m : Mem) (a : ℕ) : slice m a 1 = [m a] := rfl

theorem slice_succ (m : Mem) (a n : ℕ) : slice m a (n + 1) = m a :: slice m (a + 1) n := by
  rw [Nat.add_comm n 1, slice_add, slice_one]
  rfl

theorem getElem_slice (m : Mem) (a : ℕ) {n k : ℕ} (hk : k < (slice m a n).length) :
    (slice m a n)[k] = m (a + k) := by
  simp [slice]

theorem slice_congr {m m' : Mem} {a n : ℕ} (same : ∀ b, a ≤ b → b < a + n → m b = m' b) :
    slice m a n = slice m' a n := by
  apply List.map_congr_left
  intro k hk
  have := List.mem_range.1 hk
  exact same _ (by omega) (by omega)

theorem store_of_not_mem {m : Mem} {a b : ℕ} {l : List UInt8} (h : b < a ∨ a + l.length ≤ b) :
    store m a l b = m b := by
  unfold store
  split
  · exact List.getD_eq_default l _ (by omega)
  · rfl

theorem slice_store_self (m : Mem) (a : ℕ) (l : List UInt8) :
    slice (store m a l) a l.length = l := by
  apply List.ext_getElem (length_slice _ _ _)
  intro k hk hl
  rw [getElem_slice, store, if_pos (Nat.le_add_right a k), Nat.add_sub_cancel_left,
    List.getD_eq_getElem _ _ hl]

theorem slice_store_of_apart {m : Mem} {a b n : ℕ} {l : List UInt8}
    (apart : b + n ≤ a ∨ a + l.length ≤ b) : slice (store m a l) b n = slice m b n :=
  slice_congr fun c _ _ => store_of_not_mem (by omega)

theorem slice_store_end (m : Mem) (a n : ℕ) (l : List UInt8) :
    slice (store m (a + n) l) a (n + l.length) = slice m a n ++ l := by
  rw [slice_add, slice_store_of_apart (.inl (Nat.le_refl _)), slice_store_self]

theorem le_zero (v : ℕ) : le 0 v = [] := rfl

theorem le_succ (n v : ℕ) : le (n + 1) v = byteOf v 0 :: le n (v / 0x100) := by
  simp only [le, List.range_succ_eq_map, List.map_cons, List.map_map]
  congr 1
  exact List.map_congr_left fun k _ => byteOf_succ v k

@[simp] theorem length_le (n v : ℕ) : (le n v).length = n := by simp [le]

theorem toNat_byteOf_zero (v : ℕ) : (byteOf v 0).toNat = v % 0x100 := by
  show v / 0x100 ^ 0 % 0x100 = v % 0x100
  rw [pow_zero, Nat.div_one]

theorem ofLe_le (n v : ℕ) : ofLe (le n v) = v % 0x100 ^ n := by
  induction n generalizing v with
  | zero => rw [le_zero, pow_zero, Nat.mod_one]; rfl
  | succ n ih => rw [le_succ, ofLe, ih, toNat_byteOf_zero, pow_succ', Nat.mod_mul]

theorem ofLe_le_of_lt {n v : ℕ} (h : v < 0x100 ^ n) : ofLe (le n v) = v := by
  rw [ofLe_le, Nat.mod_eq_of_lt h]

theorem le_add (n k v : ℕ) : le (n + k) v = le n v ++ le k (v / 0x100 ^ n) := by
  induction n generalizing v with
  | zero => rw [le_zero, Nat.zero_add, pow_zero, Nat.div_one, List.nil_append]
  | succ n ih =>
    rw [Nat.add_right_comm, le_succ, ih, le_succ, Nat.div_div_eq_div_mul, pow_succ',
      List.cons_append]

theorem word_eq_ofLe (m : Mem) (a n : ℕ) : word m a n = ofLe (slice m a n) := by
  induction n generalizing a with
  | zero => rfl
  | succ n ih => rw [word, ih, slice_succ, ofLe]

/-- What stands in front of the end of a table, and that it lies in the block. -/
structure Block.Table (b : Block) (off : ℕ) (content : List UInt8) : Prop where
  inside : off ≤ b.allocated
  length : content.length = off
  holds : slice b.bytes 0 off = content
  kept : b.overrun = false

theorem Block.none_table (fresh : Mem) : (Block.none fresh).Table 0 [] where
  inside := Nat.le_refl 0
  length := rfl
  holds := rfl
  kept := rfl

/-- Where the sizes asked for are enough for what is needed, growing makes the room. -/
theorem Block.Table.allocateMore {b next : Block} {off needed initsize addsize : ℕ}
    {content : List UInt8} {room : Bool} (table : b.Table off content)
    (first : off = 0 → needed ≤ initsize) (more : needed ≤ off + addsize)
    (done : b.allocateMore needed initsize addsize room = some next) :
    next.Table off content ∧ needed ≤ next.allocated ∧ next.bytes = b.bytes := by
  unfold Block.allocateMore at done
  split at done
  · obtain rfl := Option.some.inj done
    exact ⟨table, by assumption, rfl⟩
  · rename_i full
    split at done
    · obtain rfl := Option.some.inj done
      have inside := table.inside
      have grown : off ≤ b.request initsize addsize ∧ needed ≤ b.request initsize addsize := by
        unfold Block.request
        split
        · exact ⟨by omega, first (by omega)⟩
        · omega
      exact ⟨⟨grown.1, table.length, table.holds, table.kept⟩, grown.2, rfl⟩
    · cases done

/-- Storing behind the end of a table. -/
theorem Block.Table.put {b : Block} {off : ℕ} {content l : List UInt8}
    (table : b.Table off content) (fits : off + l.length ≤ b.allocated) :
    (b.put off l).Table (off + l.length) (content ++ l) where
  inside := fits
  length := by rw [List.length_append, table.length]
  holds := by
    have := slice_store_end b.bytes 0 off l
    rw [Nat.zero_add] at this
    rw [← table.holds]
    exact this
  kept := by
    simp only [Block.put, table.kept, Bool.false_or, decide_eq_false_iff_not]
    omega

/-- Storing over what stands in a table. -/
theorem Block.Table.set {b : Block} {off a : ℕ} {front old back : List UInt8}
    (table : b.Table off (front ++ old ++ back)) (at_a : a = front.length) (new : List UInt8)
    (same : new.length = old.length) : (b.put a new).Table off (front ++ new ++ back) where
  inside := table.inside
  length := by
    rw [← table.length]
    simp only [List.length_append, same]
  holds := by
    have len := table.length
    have holds := table.holds
    have cut : off = front.length + new.length + back.length := by
      rw [← len, same]
      simp only [List.length_append]
    rw [cut, slice_add, slice_add, Nat.zero_add] at holds
    obtain ⟨holds, behind⟩ := List.append_inj holds (by simp [same])
    obtain ⟨before, -⟩ := List.append_inj holds (by simp)
    rw [cut, slice_add, slice_add, Nat.zero_add, at_a, Block.put, slice_store_self,
      slice_store_of_apart (.inl (by omega)), slice_store_of_apart (.inr (by omega)), before,
      behind]
  kept := by
    have len := table.length
    have inside := table.inside
    simp only [List.length_append] at len
    simp only [Block.put, table.kept, Bool.false_or, decide_eq_false_iff_not]
    omega

/-- The front of a table is a table. -/
theorem Block.Table.shrink {b : Block} {off : ℕ} {front back : List UInt8}
    (table : b.Table off (front ++ back)) : b.Table front.length front where
  inside := by
    have inside := table.inside
    have len := table.length
    rw [List.length_append] at len
    omega
  length := rfl
  holds := by
    have holds := table.holds
    rw [← table.length, List.length_append, slice_add] at holds
    exact (List.append_inj holds (by simp)).1
  kept := table.kept

/-- The bytes of a table, one by one. -/
theorem Block.Table.slice_middle {b : Block} {off : ℕ} {front mid back : List UInt8}
    (table : b.Table off (front ++ mid ++ back)) :
    slice b.bytes front.length mid.length = mid := by
  have holds := table.holds
  have cut : off = front.length + mid.length + back.length := by
    rw [← table.length]
    simp only [List.length_append]
  rw [cut, slice_add, slice_add, Nat.zero_add] at holds
  obtain ⟨holds, -⟩ := List.append_inj holds (by simp)
  exact (List.append_inj holds (by simp)).2

/-- A record of a name table: a name and what follows it. -/
structure Record where
  name : List UInt8
  trailer : List UInt8
deriving DecidableEq, Repr

def Record.bytes (r : Record) : List UInt8 := UInt8.ofNat r.name.length :: r.name ++ r.trailer

/-- The record fits its length byte, and its trailer has `k` bytes. -/
def Record.Fits (k : ℕ) (r : Record) : Prop := r.name.length < 0x100 ∧ r.trailer.length = k

/-- The records of which a table is made. A round takes a byte at least, so that as many
rounds as there are bytes are enough. -/
def readRecords (k : ℕ) : ℕ → List UInt8 → Option (List Record)
  | _, [] => some []
  | 0, _ :: _ => Option.none
  | rounds + 1, n :: rest =>
    if rest.length < n.toNat + k then Option.none
    else (readRecords k rounds (rest.drop (n.toNat + k))).map fun rs =>
      ⟨rest.take n.toNat, (rest.drop n.toNat).take k⟩ :: rs

theorem Record.length_bytes {k : ℕ} {r : Record} (fits : r.Fits k) :
    r.bytes.length = 1 + r.name.length + k := by
  simp only [Record.bytes, List.length_append, List.length_cons, fits.2]
  omega

theorem readRecords_flatMap {k : ℕ} {rs : List Record} (fits : ∀ r ∈ rs, r.Fits k) {rounds : ℕ}
    (enough : (rs.flatMap Record.bytes).length ≤ rounds) :
    readRecords k rounds (rs.flatMap Record.bytes) = some rs := by
  induction rs generalizing rounds with
  | nil => cases rounds <;> rfl
  | cons r rs ih =>
    obtain ⟨short, trailer⟩ := fits r (List.mem_cons_self ..)
    have len := Record.length_bytes (fits r (List.mem_cons_self ..))
    rw [List.flatMap_cons, List.length_append] at enough
    obtain ⟨rounds, rfl⟩ : ∃ n, rounds = n + 1 := Nat.exists_eq_succ_of_ne_zero (by omega)
    have count : (UInt8.ofNat r.name.length).toNat = r.name.length := Nat.mod_eq_of_lt short
    have rest : rs.flatMap Record.bytes =
        (r.name ++ r.trailer ++ rs.flatMap Record.bytes).drop (r.name.length + k) := by
      rw [← trailer, ← List.length_append, List.drop_left]
    have ahead : ¬(r.name ++ r.trailer ++ rs.flatMap Record.bytes).length < r.name.length + k := by
      simp only [List.length_append, trailer]
      omega
    rw [List.flatMap_cons, Record.bytes, List.append_assoc, List.cons_append, ← List.append_assoc,
      readRecords, count, if_neg ahead, ← rest,
      ih (fun r hr => fits r (List.mem_cons_of_mem _ hr)) (by omega)]
    simp [← trailer]

end Odin32.ByteTable
