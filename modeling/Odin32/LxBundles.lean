import Odin32.LxEntries

/-! # The bundles of an entry table

An entry table is a list of bundles. A loader reads from their bytes the entries that are in
them, and what the code does to the bytes skips ordinals or adds one entry at the end. -/

set_option autoImplicit false

namespace Odin32.LxEntries
open ByteMemory ByteTable Word LxNames LxPages

/-- The kinds of bundles that have entries. -/
inductive Kind where
  | entry32 | entryFwd
deriving DecidableEq, Repr

def Kind.type : Kind → UInt8
  | .entry32 => typeEntry32
  | .entryFwd => typeEntryFwd

def Kind.size : Kind → ℕ
  | .entry32 => 5
  | .entryFwd => 7

def Kind.read : Kind → ℕ → List UInt8 → Entry
  | .entry32, obj => readOffset32 obj
  | .entryFwd, _ => readForward

inductive Bundle where
  | empty (cnt : ℕ)
  | full (kind : Kind) (obj : ℕ) (entries : List (List UInt8))

namespace Bundle

def bytes : Bundle → List UInt8
  | empty cnt => [UInt8.ofNat cnt, typeEmpty]
  | full kind obj entries =>
    UInt8.ofNat entries.length :: kind.type :: (le 2 obj ++ entries.flatten)

def count : Bundle → ℕ
  | empty cnt => cnt
  | full _ _ entries => entries.length

/-- The entries, for the ordinals from `ordinal` on. -/
def entriesFrom (kind : Kind) (obj : ℕ) : ℕ → List (List UInt8) → List (ℕ × Entry)
  | _, [] => []
  | ordinal, entry :: entries =>
    (ordinal, kind.read obj entry) :: entriesFrom kind obj (ordinal + 1) entries

def entries (ordinal : ℕ) : Bundle → List (ℕ × Entry)
  | empty _ => []
  | full kind obj entries => entriesFrom kind obj ordinal entries

structure Ok (b : Bundle) : Prop where
  pos : 0 < b.count
  le : b.count ≤ 255
  obj : ∀ kind obj entries, b = full kind obj entries →
    obj < 0x10000 ∧ (kind = .entryFwd → obj = 0) ∧ ∀ e ∈ entries, e.length = kind.size

end Bundle

/-- The entries of a list of bundles. -/
def allEntries : ℕ → List Bundle → List (ℕ × Entry)
  | _, [] => []
  | ordinal, b :: bs => b.entries ordinal ++ allEntries (ordinal + b.count) bs

def allBytes (bs : List Bundle) : List UInt8 := bs.flatMap Bundle.bytes

def allCount (bs : List Bundle) : ℕ := (bs.map Bundle.count).foldr (· + ·) 0

@[simp] theorem allBytes_append (bs cs : List Bundle) :
    allBytes (bs ++ cs) = allBytes bs ++ allBytes cs := List.flatMap_append ..

@[simp] theorem allBytes_singleton (b : Bundle) : allBytes [b] = b.bytes := by simp [allBytes]

theorem allCount_cons (b : Bundle) (bs : List Bundle) :
    allCount (b :: bs) = b.count + allCount bs := rfl

theorem allCount_append (bs cs : List Bundle) :
    allCount (bs ++ cs) = allCount bs + allCount cs := by
  induction bs with
  | nil => exact (Nat.zero_add _).symm
  | cons b bs ih => rw [List.cons_append, allCount_cons, allCount_cons, ih, Nat.add_assoc]

theorem allEntries_append (ordinal : ℕ) (bs cs : List Bundle) :
    allEntries ordinal (bs ++ cs) =
      allEntries ordinal bs ++ allEntries (ordinal + allCount bs) cs := by
  induction bs generalizing ordinal with
  | nil => rfl
  | cons b bs ih =>
    rw [List.cons_append, allEntries, ih, allEntries, allCount_cons, List.append_assoc,
      Nat.add_assoc]

theorem entriesFrom_append (kind : Kind) (obj ordinal : ℕ) (es fs : List (List UInt8)) :
    Bundle.entriesFrom kind obj ordinal (es ++ fs) =
      Bundle.entriesFrom kind obj ordinal es ++
        Bundle.entriesFrom kind obj (ordinal + es.length) fs := by
  induction es generalizing ordinal with
  | nil => rfl
  | cons e es ih =>
    rw [List.cons_append, Bundle.entriesFrom, ih, Bundle.entriesFrom, List.length_cons,
      List.cons_append, Nat.add_assoc, Nat.add_comm 1]

theorem length_flatten {size : ℕ} {es : List (List UInt8)} (sizes : ∀ e ∈ es, e.length = size) :
    es.flatten.length = size * es.length := by
  induction es with
  | nil => rfl
  | cons e es ih =>
    rw [List.flatten_cons, List.length_append, sizes e (List.mem_cons_self ..),
      ih fun e he => sizes e (List.mem_cons_of_mem _ he), List.length_cons, Nat.mul_succ,
      Nat.add_comm]

theorem readEntries_flatten (kind : Kind) (obj : ℕ) {size : ℕ} {es : List (List UInt8)}
    (sizes : ∀ e ∈ es, e.length = size) (ordinal : ℕ) (rest : List UInt8) :
    readEntries size (kind.read obj) es.length ordinal (es.flatten ++ rest) =
      Bundle.entriesFrom kind obj ordinal es := by
  induction es generalizing ordinal with
  | nil => rfl
  | cons e es ih =>
    have len := sizes e (List.mem_cons_self ..)
    rw [List.length_cons, readEntries, List.flatten_cons, List.append_assoc, ← len,
      List.take_left, List.drop_left, len, ih fun e he => sizes e (List.mem_cons_of_mem _ he),
      Bundle.entriesFrom]

theorem Bundle.Ok.toNat_count {b : Bundle} (ok : b.Ok) :
    (UInt8.ofNat b.count).toNat = b.count ∧ UInt8.ofNat b.count ≠ 0 := by
  have := ok.pos
  have := ok.le
  have same : (UInt8.ofNat b.count).toNat = b.count := Nat.mod_eq_of_lt (by omega)
  refine ⟨same, fun h => ?_⟩
  have zero := congrArg UInt8.toNat h
  rw [same] at zero
  have : (0 : UInt8).toNat = 0 := rfl
  omega

theorem two_le_length_bytes (b : Bundle) : 2 ≤ b.bytes.length := by
  cases b with
  | empty cnt => exact Nat.le_refl 2
  | full kind obj entries => simp [Bundle.bytes]

theorem decode_bundle {b : Bundle} (ok : b.Ok) (rounds ordinal : ℕ) (rest : List UInt8) :
    decode (rounds + 1) ordinal (b.bytes ++ rest) =
      (decode rounds (ordinal + b.count) rest).map (b.entries ordinal ++ ·) := by
  obtain ⟨same, nonzero⟩ := ok.toNat_count
  cases b with
  | empty cnt =>
    simp only [Bundle.count] at same nonzero
    simp only [Bundle.bytes, List.cons_append, List.nil_append, decode, if_neg nonzero, if_true,
      same, Bundle.entries, Bundle.count, Option.map_id']
  | full kind obj es =>
    obtain ⟨small, -, sizes⟩ := ok.obj kind obj es rfl
    simp only [Bundle.count] at same nonzero
    have object : ofLe ((le 2 obj ++ (es.flatten ++ rest)).take 2) = obj := by
      rw [List.take_left' (length_le 2 obj)]
      exact ofLe_le_of_lt small
    have behind : (le 2 obj ++ (es.flatten ++ rest)).drop 2 = es.flatten ++ rest :=
      List.drop_left' (length_le 2 obj)
    have size := length_flatten sizes
    have after : (le 2 obj ++ (es.flatten ++ rest)).drop (2 + kind.size * es.length) = rest := by
      rw [← List.drop_drop, behind, ← size, List.drop_left]
    have enough : ¬(le 2 obj ++ (es.flatten ++ rest)).length < 2 + kind.size * es.length := by
      simp only [List.length_append, length_le, size]
      omega
    have read := readEntries_flatten kind obj sizes ordinal rest
    rw [Bundle.bytes, List.cons_append, List.cons_append, List.append_assoc, decode,
      if_neg nonzero, same, Bundle.count, Bundle.entries]
    cases kind with
    | entry32 =>
      simp only [Kind.type, Kind.size] at enough after read ⊢
      rw [if_neg (by decide), if_pos trivial, if_neg enough, after, object, behind]
      exact congrArg (fun l => Option.map (l ++ ·) _) read
    | entryFwd =>
      simp only [Kind.type, Kind.size] at enough after read ⊢
      rw [if_neg (by decide), if_neg (by decide), if_pos trivial, if_neg enough, after, behind]
      exact congrArg (fun l => Option.map (l ++ ·) _) read

theorem decode_allBytes {bs : List Bundle} (ok : ∀ b ∈ bs, b.Ok) {rounds : ℕ} (ordinal : ℕ)
    (enough : (allBytes bs).length < rounds) :
    decode rounds ordinal (allBytes bs ++ [0]) = some (allEntries ordinal bs) := by
  obtain ⟨rounds, rfl⟩ : ∃ n, rounds = n + 1 := Nat.exists_eq_succ_of_ne_zero (by omega)
  induction bs generalizing rounds ordinal with
  | nil => rfl
  | cons b bs ih =>
    have two := two_le_length_bytes b
    rw [allBytes, List.flatMap_cons, List.length_append] at enough
    obtain ⟨rounds, rfl⟩ : ∃ n, rounds = n + 1 := Nat.exists_eq_succ_of_ne_zero (by omega)
    have step := decode_bundle (ok b (List.mem_cons_self ..)) (rounds + 1) ordinal
      (allBytes bs ++ [0])
    rw [ih (fun b hb => ok b (List.mem_cons_of_mem _ hb)) _ rounds
      (by simp only [allBytes]; omega)] at step
    rw [allBytes, List.flatMap_cons, List.append_assoc]
    exact step

end Odin32.LxEntries
