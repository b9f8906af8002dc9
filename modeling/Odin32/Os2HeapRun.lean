import Odin32.Os2Heap

/-! # The block law of the heap

What `Alloc`, `ReAlloc`, `Free` and `Size` owe the application, call by call, and exactly
when a call pays: the size survives the rounding and the header, a block that has to move
finds memory, nothing but zeros is between the old size and what is kept of the block when
zeros were asked for, and what is no block does not look like one. -/

set_option autoImplicit false

namespace Odin32.Os2Heap

open ByteMemory Word

/-! ## The law -/

/-- The blocks of the application are aligned, in blocks of the C library and apart. -/
structure BlocksOk (s : State) : Prop where
  intact : s.corrupt = false
  held : ∀ b n, s.live b = some n → b % 8 = 0 ∧ ∃ r ∈ s.regions, r.base ≤ b ∧ b + n ≤ r.base + r.size
  apart : ∀ b c n m, s.live b = some n → s.live c = some m → b ≠ c → b + n ≤ c ∨ c + m ≤ b

/-- The blocks but for one keep their bytes. -/
def KeepsBut (s s' : State) (p : ℕ) : Prop :=
  ∀ b n, b ≠ p → s.live b = some n → ∀ i < n, s'.mem (b + i) = s.mem (b + i)

def Keeps (s s' : State) : Prop :=
  ∀ b n, s.live b = some n → ∀ i < n, s'.mem (b + i) = s.mem (b + i)

structure AllocLaw (s : State) (dwFlags dwBytes : ℕ) (s' : State) (p : ℕ) : Prop where
  keeps : Keeps s s'
  fresh : p ≠ 0 → s.live p = none
  rounds : p ≠ 0 → dwBytes + 7 < 0x100000000
  zeroed : p ≠ 0 → dwFlags &&& heapZeroMemory ≠ 0 → ∀ i < dwBytes, s'.mem (p + i) = 0

structure MoveLaw (s : State) (dwFlags lpMem old dwBytes : ℕ) (s' : State) (p : ℕ) : Prop where
  others : KeepsBut s s' lpMem
  failed : p = 0 → Keeps s s'
  fresh : p ≠ 0 → p = lpMem ∨ s.live p = none
  rounds : p ≠ 0 → dwBytes + 7 < 0x100000000
  kept : p ≠ 0 → ∀ i < min old dwBytes, s'.mem (p + i) = s.mem (lpMem + i)
  zeroed : p ≠ 0 → dwFlags &&& heapZeroMemory ≠ 0 → ∀ i, old ≤ i → i < dwBytes → s'.mem (p + i) = 0

/-- What a call owes. `ReAlloc` of `NULL` allocates. -/
def Law (s : State) (op : Op) (s' : State) (result : ℕ) : Prop :=
  BlocksOk s' ∧
    match op with
    | .alloc dwFlags dwBytes _ => AllocLaw s dwFlags.toNat dwBytes.toNat s' result
    | .reAlloc dwFlags lpMem dwBytes _ _ _ =>
      match s.live lpMem.toNat with
      | some old => MoveLaw s dwFlags.toNat lpMem.toNat old dwBytes.toNat s' result
      | none =>
        if lpMem = 0 then AllocLaw s dwFlags.toNat dwBytes.toNat s' result
        else result = 0 ∧ s'.mem = s.mem
    | .free lpMem _ _ =>
      match s.live lpMem.toNat with
      | some _ => result = 1 ∧ KeepsBut s s' lpMem.toNat
      | none => result = 0 ∧ s'.mem = s.mem
    | .size lpMem _ => ∀ n, s.live lpMem.toNat = some n → result = n
    | .store lpMem _ _ => KeepsBut s s' lpMem.toNat

/-! ## When a call pays -/

/-- The size survives the rounding and the header. -/
def Fits (dwBytes : ℕ) : Prop := dwBytes ≤ 0xFFFFFFE8

instance (dwBytes : ℕ) : Decidable (Fits dwBytes) := inferInstanceAs (Decidable (_ ≤ _))

def AllocFits (dwBytes : ℕ) (env : Env) : Prop := env.given ≠ none → Fits dwBytes

/-- The size a block was made with, rounded. -/
def State.capacity (s : State) (lpMem : ℕ) : ℕ := heapAlign (word s.mem (lpMem - 4) 4)

/-- The bytes from `old` on, as far as `ReAlloc` keeps the block, are zero. -/
def Zeros (s : State) (lpMem old dwBytes : ℕ) : Prop :=
  ∀ i, old ≤ i → i < min dwBytes (s.capacity lpMem) → s.mem (lpMem + i) = 0

structure MoveFits (s : State) (dwFlags lpMem old dwBytes : ℕ) (env : Env) : Prop where
  room : s.capacity lpMem < dwBytes → env.given ≠ none ∧ Fits dwBytes
  zeros : dwFlags &&& heapZeroMemory ≠ 0 → Zeros s lpMem old dwBytes

/-- `ReAlloc` to a size that is not 0, of a block with the size given or of what is none. -/
def ReAllocFits (s : State) (dwFlags lpMem dwBytes : ℕ) (env : Env) : Option ℕ → Prop
  | some old => MoveFits s dwFlags lpMem old dwBytes env
  | none => lpMem = 0 ∧ AllocFits dwBytes env

/-- What is no block does not look like one. -/
def FreeFits (s : State) (lpMem : ℕ) (bad : Bool) : Option ℕ → Prop
  | some _ => lpMem < s.ulMaxAddr
  | none => 0x10000 ≤ lpMem → lpMem < s.ulMaxAddr →
    s.heapElemValid bad (State.getHeapObj lpMem) = false

/-- What a call needs. -/
def OpFits (s : State) : Op → Prop
  | .alloc _ dwBytes env => AllocFits dwBytes.toNat env
  | .reAlloc dwFlags lpMem dwBytes _ env _ => dwBytes ≠ 0 →
    ReAllocFits s dwFlags.toNat lpMem.toNat dwBytes.toNat env (s.live lpMem.toNat)
  | .free lpMem bad _ => FreeFits s lpMem.toNat bad (s.live lpMem.toNat)
  | .size lpMem _ => s.live lpMem.toNat ≠ none → lpMem.toNat < s.ulMaxAddr
  | .store _ _ _ => True

section Decidable

variable (s : State) (dwFlags lpMem old dwBytes : ℕ) (env : Env)

instance : Decidable (AllocFits dwBytes env) := inferInstanceAs (Decidable (_ → _))

instance : Decidable (Zeros s lpMem old dwBytes) :=
  decidable_of_iff (∀ i < min dwBytes (s.capacity lpMem), old ≤ i → s.mem (lpMem + i) = 0)
    ⟨fun h i low high => h i high low, fun h i high low => h i low high⟩

instance : Decidable (MoveFits s dwFlags lpMem old dwBytes env) :=
  decidable_of_iff ((s.capacity lpMem < dwBytes → env.given ≠ none ∧ Fits dwBytes) ∧
    (dwFlags &&& heapZeroMemory ≠ 0 → Zeros s lpMem old dwBytes))
    ⟨fun h => ⟨h.1, h.2⟩, fun h => ⟨h.room, h.zeros⟩⟩

instance : (block : Option ℕ) → Decidable (ReAllocFits s dwFlags lpMem dwBytes env block)
  | some old => inferInstanceAs (Decidable (MoveFits s dwFlags lpMem old dwBytes env))
  | none => inferInstanceAs (Decidable (_ ∧ _))

instance (bad : Bool) : (block : Option ℕ) → Decidable (FreeFits s lpMem bad block)
  | some _ => inferInstanceAs (Decidable (_ < _))
  | none => inferInstanceAs (Decidable (_ → _))

instance : (op : Op) → Decidable (OpFits s op)
  | .alloc _ _ _ => inferInstanceAs (Decidable (AllocFits _ _))
  | .reAlloc _ _ _ _ _ _ => inferInstanceAs (Decidable (_ → ReAllocFits _ _ _ _ _ _))
  | .free _ _ _ => inferInstanceAs (Decidable (FreeFits _ _ _ _))
  | .size _ _ => inferInstanceAs (Decidable (_ → _))
  | .store _ _ _ => .isTrue trivial

end Decidable

/-! ## The invariant -/

/-- The header and the block of a live pointer. -/
structure Block (s : State) (b n : ℕ) : Prop where
  above : 0x10010 ≤ b
  aligned : b % 8 = 0
  magic : word s.mem (b - 16) 4 = magicNrHeap
  lpMem : word s.mem (b - 12) 4 = b - 16
  cursize : word s.mem (b - 8) 4 = n
  orgsize : word s.mem (b - 4) 4 ≤ 0xFFFFFFE8
  region : ⟨b - 16, s.capacity b + 16⟩ ∈ s.regions
  holds : n ≤ s.capacity b

/-- The blocks of the C library are apart, and each has room for a header. -/
structure RegionsOk (s : State) : Prop where
  apart : s.regions.Pairwise fun r r' => r.base + r.size ≤ r'.base ∨ r'.base + r'.size ≤ r.base
  bounds : ∀ r ∈ s.regions, 0x10000 ≤ r.base ∧ r.base + r.size ≤ s.ulMaxAddr
  sizes : ∀ r ∈ s.regions, 16 ≤ r.size
  words : s.ulMaxAddr < 0x100000000
  intact : s.corrupt = false

structure Inv (s : State) : Prop extends RegionsOk s where
  blocks : ∀ b n, s.live b = some n → Block s b n

theorem inv_init (ulMaxAddr : UInt32) (mem : Mem) : Inv (init ulMaxAddr mem) := by
  refine ⟨⟨List.Pairwise.nil, ?_, ?_, ulMaxAddr.toNat_lt, rfl⟩, ?_⟩
  · intro r mem
    cases mem
  · intro r mem
    cases mem
  · intro b n live
    cases live

theorem heapAlign_of_le {a : ℕ} (le : a ≤ 0xFFFFFFF8) : heapAlign a = (a + 7) / 8 * 8 := by
  unfold heapAlign u32
  omega

theorem RegionsOk.region_eq {s : State} (ok : RegionsOk s) {r r' : Region} (mem : r ∈ s.regions)
    (mem' : r' ∈ s.regions) (meet : r.base < r'.base + r'.size) (meet' : r'.base < r.base + r.size) :
    r = r' := by
  by_contra ne
  obtain ⟨i, hi, rfl⟩ := List.getElem_of_mem mem
  obtain ⟨j, hj, rfl⟩ := List.getElem_of_mem mem'
  have apart := List.pairwise_iff_getElem.mp ok.apart
  rcases Nat.lt_trichotomy i j with lt | rfl | gt
  · have := apart i j hi hj lt
    omega
  · exact ne rfl
  · have := apart j i hj hi gt
    omega

/-- The block of the C library of a live pointer. -/
def State.regionOf (s : State) (b : ℕ) : Region := ⟨b - 16, s.capacity b + 16⟩

theorem Inv.blocksOk {s : State} (inv : Inv s) : BlocksOk s := by
  refine ⟨inv.intact, ?_, ?_⟩
  · intro b n live
    have block := inv.blocks b n live
    refine ⟨block.aligned, s.regionOf b, block.region, ?_, ?_⟩
    · show b - 16 ≤ b
      omega
    · have above := block.above
      have holds := block.holds
      show b + n ≤ b - 16 + (s.capacity b + 16)
      omega
  · intro b c n m live live' ne
    have block := inv.blocks b n live
    have block' := inv.blocks c m live'
    have above := block.above
    have above' := block'.above
    have holds := block.holds
    have holds' := block'.holds
    by_contra meet
    have same := inv.region_eq block.region block'.region (by simp only; omega)
      (by simp only; omega)
    have base : b - 16 = c - 16 := congrArg Region.base same
    omega

/-! ## What the routines do -/

section Memory

variable {s s' : State}

theorem owns_of_mem {r : Region} (mem : r ∈ s.regions) {a : ℕ} (low : r.base ≤ a)
    (high : a < r.base + r.size) : s.owns a = true :=
  List.any_eq_true.mpr ⟨r, mem, decide_eq_true ⟨low, high⟩⟩

theorem within_of_mem {r : Region} (mem : r ∈ s.regions) {q a n : ℕ} (low : r.base ≤ q)
    (high : q < r.base + r.size) (low' : r.base ≤ a) (high' : a + n ≤ r.base + r.size) :
    s.within q a n = true :=
  List.any_eq_true.mpr ⟨r, mem, decide_eq_true ⟨low, high, low', high'⟩⟩

theorem put_of_mem {r : Region} (mem : r ∈ s.regions) {q a n : ℕ} (low : r.base ≤ q)
    (high : q < r.base + r.size) (low' : r.base ≤ a) (high' : a + n ≤ r.base + r.size)
    (pos : n ≠ 0) (m : Mem) : s.put q a n m = { s with mem := m } := by
  unfold State.put
  rw [if_neg pos, if_pos (within_of_mem mem low high low' high')]

theorem setDword_of_mem {r : Region} (mem : r ∈ s.regions) {q a v : ℕ} (low : r.base ≤ q)
    (high : q < r.base + r.size) (low' : r.base ≤ a) (high' : a + 4 ≤ r.base + r.size) :
    s.setDword q a v = { s with mem := copyBytes s.mem a v 0 4 } :=
  put_of_mem mem low high low' high' (by decide) _

theorem setDword_at {base n : ℕ} (mem : ⟨base, n⟩ ∈ s.regions) {a v : ℕ} (low : base ≤ a)
    (high : a + 4 ≤ base + n) :
    s.setDword base a v = { s with mem := copyBytes s.mem a v 0 4 } :=
  setDword_of_mem mem (le_refl base) (show base < base + n by omega) low high

theorem setHeader_eq {base n dwBytes : ℕ} (mem : ⟨base, n⟩ ∈ s.regions) (room : 16 ≤ n) :
    (((s.setDword base (base + 4) base).setDword base base magicNrHeap).setDword
      base (base + 12) dwBytes).setDword base (base + 8) dwBytes =
    { s with mem := copyBytes (copyBytes (copyBytes (copyBytes s.mem (base + 4) base 0 4)
      base magicNrHeap 0 4) (base + 12) dwBytes 0 4) (base + 8) dwBytes 0 4 } := by
  have set : ∀ (m : Mem) (a v : ℕ), base ≤ a → a + 4 ≤ base + n →
      State.setDword { s with mem := m } base a v = { s with mem := copyBytes m a v 0 4 } := by
    intro m a v low high
    exact setDword_at (s := { s with mem := m }) mem low high
  have first : s.setDword base (base + 4) base = _ := set s.mem (base + 4) base (by omega) (by omega)
  rw [first, set _ base magicNrHeap (by omega) (by omega),
    set _ (base + 12) dwBytes (by omega) (by omega), set _ (base + 8) dwBytes (by omega) (by omega)]

theorem scribbled_mem_of_owns {m : Mem} {a : ℕ} (owned : s.owns a = true) :
    (s.scribbled m).mem a = s.mem a := if_pos owned

end Memory

/-- The new block of a successful `Alloc`, with its header filled in. -/
structure Made (s : State) (dwFlags dwBytes : ℕ) (s' : State) (base : ℕ) : Prop where
  regions : s'.regions = ⟨base, heapAlign dwBytes + 16⟩ :: s.regions
  live : s'.live = s.live
  ulMaxAddr : s'.ulMaxAddr = s.ulMaxAddr
  corrupt : s'.corrupt = s.corrupt
  low : 0x10000 ≤ base
  aligned : base % 8 = 0
  bound : base + (heapAlign dwBytes + 16) ≤ s.ulMaxAddr
  apart : ∀ r ∈ s.regions, base + (heapAlign dwBytes + 16) ≤ r.base ∨ r.base + r.size ≤ base
  keeps : ∀ a, s.owns a = true → s'.mem a = s.mem a
  magic : word s'.mem base 4 = magicNrHeap
  lpMem : word s'.mem (base + 4) 4 = base
  cursize : word s'.mem (base + 8) 4 = dwBytes
  orgsize : word s'.mem (base + 12) 4 = dwBytes
  zeroed : dwFlags &&& heapZeroMemory ≠ 0 → ∀ i < heapAlign dwBytes, s'.mem (base + 16 + i) = 0

theorem Fits.heapAlign {dwBytes : ℕ} (fits : Fits dwBytes) :
    heapAlign dwBytes = (dwBytes + 7) / 8 * 8 :=
  heapAlign_of_le (le_trans fits (by decide))

theorem Fits.alloc_size {dwBytes : ℕ} (fits : Fits dwBytes) :
    add32 (Os2Heap.heapAlign dwBytes) heapOverhead = Os2Heap.heapAlign dwBytes + 16 := by
  have align := fits.heapAlign
  unfold Fits at fits
  rw [align]
  show add32 _ 16 = _
  exact add32_of_lt (by omega)

theorem Fits.le_heapAlign {dwBytes : ℕ} (fits : Fits dwBytes) : dwBytes ≤ Os2Heap.heapAlign dwBytes := by
  rw [fits.heapAlign]
  omega

theorem header_words (m : Mem) (base dwBytes : ℕ) (base_lt : base < 0x100000000)
    (dwBytes_lt : dwBytes < 0x100000000) :
    let m' := copyBytes (copyBytes (copyBytes (copyBytes m (base + 4) base 0 4)
      base magicNrHeap 0 4) (base + 12) dwBytes 0 4) (base + 8) dwBytes 0 4
    word m' base 4 = magicNrHeap ∧ word m' (base + 4) 4 = base ∧ word m' (base + 8) 4 = dwBytes ∧
      word m' (base + 12) 4 = dwBytes ∧
      ∀ a, a < base ∨ base + 16 ≤ a → m' a = m a := by
  intro m'
  have word32 : (0x100 : ℕ) ^ 4 = 0x100000000 := by norm_num
  refine ⟨?_, ?_, ?_, ?_, ?_⟩
  · rw [word_copyBytes_of_apart (by omega), word_copyBytes_of_apart (by omega),
      word_copyBytes_self (by decide)]
  · rw [word_copyBytes_of_apart (by omega), word_copyBytes_of_apart (by omega),
      word_copyBytes_of_apart (by omega), word_copyBytes_self (by rw [word32]; exact base_lt)]
  · rw [word_copyBytes_self (by rw [word32]; exact dwBytes_lt)]
  · rw [word_copyBytes_of_apart (by omega),
      word_copyBytes_self (by rw [word32]; exact dwBytes_lt)]
  · intro a outside
    show copyBytes _ _ _ _ _ a = m a
    rw [copyBytes_of_not_mem (by omega), copyBytes_of_not_mem (by omega),
      copyBytes_of_not_mem (by omega), copyBytes_of_not_mem (by omega)]

theorem umalloc_none {s s' : State} {n p : ℕ} {env : Env} (given : env.given = none)
    (done : s.umalloc n env = some (s', p)) : s' = s.scribbled env.scribble ∧ p = 0 := by
  unfold State.umalloc at done
  rw [given] at done
  cases done
  exact ⟨rfl, rfl⟩

theorem umalloc_some {s s' : State} {n p base : ℕ} {env : Env} (given : env.given = some base)
    (done : s.umalloc n env = some (s', p)) :
    p = base ∧ (0x10000 ≤ base ∧ base % 8 = 0 ∧ base + n ≤ s.ulMaxAddr ∧
      ∀ r ∈ s.regions, base + n ≤ r.base ∨ r.base + r.size ≤ base) ∧
      s' = { s.scribbled env.scribble with regions := ⟨base, n⟩ :: s.regions } := by
  unfold State.umalloc at done
  rw [given] at done
  dsimp only at done
  split at done
  · rename_i ok
    cases done
    exact ⟨rfl, ok, rfl⟩
  · cases done

theorem memset0_of_mem {s : State} {base n : ℕ} (mem : ⟨base, n⟩ ∈ s.regions) (pos : n ≠ 0)
    (dwFlags : ℕ) :
    ∃ m, (if dwFlags &&& heapZeroMemory ≠ 0 then s.memset0 base n else s) = { s with mem := m } ∧
      (∀ a, a < base ∨ base + n ≤ a → m a = s.mem a) ∧
      (dwFlags &&& heapZeroMemory ≠ 0 → ∀ a, base ≤ a → a < base + n → m a = 0) := by
  by_cases zero : dwFlags &&& heapZeroMemory ≠ 0
  · rw [if_pos zero]
    refine ⟨_, put_of_mem mem (le_refl base) ?_ (le_refl base) (le_refl _) pos _, ?_, ?_⟩
    · exact Nat.lt_add_of_pos_right (Nat.pos_of_ne_zero pos)
    · intro a outside
      exact if_neg (by omega)
    · intro _ a low high
      exact if_pos ⟨low, high⟩
  · rw [if_neg zero]
    exact ⟨s.mem, rfl, fun _ _ => rfl, fun h => absurd h zero⟩

theorem alloc_none {s s' : State} {dwFlags dwBytes p : ℕ} {env : Env} (given : env.given = none)
    (done : s.alloc dwFlags dwBytes env = some (s', p)) :
    s' = s.scribbled env.scribble ∧ p = 0 := by
  unfold State.alloc at done
  dsimp only at done
  split at done
  · cases done
  · rename_i t q eq
    obtain ⟨rfl, rfl⟩ := umalloc_none given eq
    cases done
    exact ⟨rfl, rfl⟩

theorem alloc_some {s s' : State} {dwFlags dwBytes p : ℕ} {env : Env} (given : env.given ≠ none)
    (words : s.ulMaxAddr < 0x100000000) (fits : Fits dwBytes)
    (done : s.alloc dwFlags dwBytes env = some (s', p)) :
    ∃ base, p = base + 16 ∧ Made s dwFlags dwBytes s' base := by
  obtain ⟨base, given⟩ := Option.ne_none_iff_exists'.mp given
  unfold State.alloc at done
  dsimp only at done
  rw [fits.alloc_size] at done
  split at done
  · cases done
  · rename_i t q eq
    obtain ⟨rfl, ⟨low, aligned, bound, apart⟩, rfl⟩ := umalloc_some given eq
    have here : heapAlign q = q := by
      rw [heapAlign_of_le (by omega)]
      omega
    rw [if_neg (by omega), here] at done
    have new : (⟨q, heapAlign dwBytes + 16⟩ : Region) ∈
        (⟨q, heapAlign dwBytes + 16⟩ : Region) :: s.regions := List.mem_cons_self
    obtain ⟨m, zeroed_eq, outside, inside⟩ := memset0_of_mem
      (s := { s.scribbled env.scribble with
        regions := ⟨q, heapAlign dwBytes + 16⟩ :: s.regions }) new (by omega) dwFlags
    rw [zeroed_eq] at done
    rw [setHeader_eq (by exact new) (by omega)] at done
    cases done
    have dwBytes_lt : dwBytes < 0x100000000 := lt_of_le_of_lt fits (by decide)
    obtain ⟨magic, lpMem, cursize, orgsize, rest⟩ :=
      header_words m q dwBytes (by omega) dwBytes_lt
    refine ⟨q, rfl, rfl, rfl, rfl, rfl, low, aligned, bound, apart, ?_, magic, lpMem, cursize,
      orgsize, ?_⟩
    · intro a owned
      obtain ⟨r, mem, holds⟩ := List.any_eq_true.mp owned
      have away := apart r mem
      have holds := of_decide_eq_true holds
      have out : m a = (s.scribbled env.scribble).mem a := outside a (by omega)
      exact (rest a (by omega)).trans (out.trans (scribbled_mem_of_owns owned))
    · intro zero i lt
      exact (rest _ (by omega)).trans (inside zero _ (by omega) (by omega))

/-! ## Blocks and what leaves them alone -/

section Blocks

variable {s s' : State} {b n : ℕ}

theorem Block.congr (block : Block s b n) (header : ∀ a, b - 16 ≤ a → a < b → s'.mem a = s.mem a)
    (region : s.regionOf b ∈ s'.regions) : Block s' b n := by
  have above := block.above
  have words : ∀ k, k + 4 ≤ 16 → word s'.mem (b - 16 + k) 4 = word s.mem (b - 16 + k) 4 := by
    intro k le
    apply word_congr
    intro i lt
    exact header _ (by omega) (by omega)
  have magic := words 0 (by decide)
  have lpMem := words 4 (by decide)
  have cursize := words 8 (by decide)
  have orgsize := words 12 (by decide)
  rw [show b - 16 + 4 = b - 12 by omega] at lpMem
  rw [show b - 16 + 8 = b - 8 by omega] at cursize
  rw [show b - 16 + 12 = b - 4 by omega] at orgsize
  have capacity : s'.capacity b = s.capacity b := congrArg heapAlign orgsize
  refine ⟨above, block.aligned, magic.trans block.magic, lpMem.trans block.lpMem,
    cursize.trans block.cursize, ?_, ?_, ?_⟩
  · rw [orgsize]
    exact block.orgsize
  · rw [capacity]
    exact region
  · rw [capacity]
    exact block.holds

theorem Block.withLive (block : Block s b n) (live : ℕ → Option ℕ) :
    Block { s with live := live } b n :=
  ⟨block.above, block.aligned, block.magic, block.lpMem, block.cursize, block.orgsize,
    block.region, block.holds⟩

theorem RegionsOk.withLive (ok : RegionsOk s) (live : ℕ → Option ℕ) :
    RegionsOk { s with live := live } :=
  ⟨ok.apart, ok.bounds, ok.sizes, ok.words, ok.intact⟩

theorem Block.owns (block : Block s b n) {a : ℕ} (low : b - 16 ≤ a)
    (high : a < b + s.capacity b) : s.owns a = true := by
  have above := block.above
  refine owns_of_mem block.region low ?_
  show a < b - 16 + (s.capacity b + 16)
  omega

theorem RegionsOk.blocks_apart (ok : RegionsOk s) {c m : ℕ} (block : Block s b n)
    (block' : Block s c m) (ne : b ≠ c) :
    b + s.capacity b ≤ c - 16 ∨ c + s.capacity c ≤ b - 16 := by
  have above := block.above
  have above' := block'.above
  by_contra meet
  have same := ok.region_eq block.region block'.region (by simp only; omega) (by simp only; omega)
  have base : b - 16 = c - 16 := congrArg Region.base same
  omega

theorem Inv.keeps_of_owns (inv : Inv s) (same : ∀ a, s.owns a = true → s'.mem a = s.mem a) :
    Keeps s s' := by
  intro b n live i lt
  have block := inv.blocks b n live
  have holds := block.holds
  exact same _ (block.owns (by omega) (by omega))

theorem Inv.write (inv : Inv s) (live : s.live b = some n) {m : Mem}
    (outside : ∀ a, a < b ∨ b + s.capacity b ≤ a → m a = s.mem a) :
    Inv { s with mem := m } ∧ KeepsBut s { s with mem := m } b := by
  have block := inv.blocks b n live
  refine ⟨⟨⟨inv.apart, inv.bounds, inv.sizes, inv.words, inv.intact⟩, ?_⟩, ?_⟩
  · intro c k live'
    have block' := inv.blocks c k live'
    refine block'.congr ?_ block'.region
    intro a low high
    apply outside
    by_cases eq : b = c
    · subst eq
      exact .inl high
    · have := inv.blocks_apart block block' eq
      omega
  · intro c k ne live' i lt
    have block' := inv.blocks c k live'
    have holds := block'.holds
    have := inv.blocks_apart block block' (Ne.symm ne)
    exact outside _ (by omega)

theorem Inv.scribbled (inv : Inv s) (m : Mem) : Inv (s.scribbled m) := by
  refine ⟨⟨inv.apart, inv.bounds, inv.sizes, inv.words, inv.intact⟩, ?_⟩
  intro c k live
  have block := inv.blocks c k live
  refine block.congr ?_ block.region
  intro a low high
  exact scribbled_mem_of_owns (block.owns low (by omega))

end Blocks

/-! ## The steps -/

section Steps

variable {s s' : State} {dwFlags dwBytes : ℕ}

theorem Made.block {base : ℕ} (made : Made s dwFlags dwBytes s' base) (fits : Fits dwBytes) :
    Block s' (base + 16) dwBytes := by
  have low := made.low
  have aligned := made.aligned
  have capacity : s'.capacity (base + 16) = heapAlign dwBytes := by
    unfold State.capacity
    rw [show base + 16 - 4 = base + 12 by omega, made.orgsize]
  refine ⟨by omega, by omega, made.magic, made.lpMem, made.cursize, ?_, ?_, ?_⟩
  · rw [show base + 16 - 4 = base + 12 by omega, made.orgsize]
    exact fits
  · rw [capacity, made.regions, show base + 16 - 16 = base by omega]
    exact List.mem_cons_self
  · rw [capacity]
    exact fits.le_heapAlign

theorem Made.fresh {base : ℕ} (inv : Inv s) (made : Made s dwFlags dwBytes s' base) :
    s.live (base + 16) = none := by
  rw [Option.eq_none_iff_forall_ne_some]
  intro n live
  have block := inv.blocks _ n live
  have apart := made.apart _ block.region
  simp only at apart
  omega

theorem Made.regionsOk {base : ℕ} (ok : RegionsOk s) (made : Made s dwFlags dwBytes s' base) :
    RegionsOk s' := by
  refine ⟨?_, ?_, ?_, ?_, ?_⟩
  · rw [made.regions]
    exact List.Pairwise.cons made.apart ok.apart
  · rw [made.regions, made.ulMaxAddr]
    intro r mem
    rcases List.mem_cons.mp mem with rfl | mem
    · exact ⟨made.low, made.bound⟩
    · exact ok.bounds r mem
  · rw [made.regions]
    intro r mem
    rcases List.mem_cons.mp mem with rfl | mem
    · exact Nat.le_add_left 16 _
    · exact ok.sizes r mem
  · rw [made.ulMaxAddr]
    exact ok.words
  · rw [made.corrupt]
    exact ok.intact

theorem Made.block_of_live {base b n : ℕ} (inv : Inv s) (made : Made s dwFlags dwBytes s' base)
    (live : s.live b = some n) : Block s' b n := by
  have block := inv.blocks b n live
  refine block.congr ?_ ?_
  · intro a low high
    exact made.keeps a (block.owns low (by omega))
  · rw [made.regions]
    exact List.mem_cons_of_mem _ block.region

theorem Made.inv {base : ℕ} (inv : Inv s) (fits : Fits dwBytes)
    (made : Made s dwFlags dwBytes s' base) :
    Inv { s' with live := Function.update s.live (base + 16) (some dwBytes) } := by
  refine ⟨(made.regionsOk inv.toRegionsOk).withLive _, ?_⟩
  intro b n (live : Function.update s.live (base + 16) (some dwBytes) b = some n)
  apply Block.withLive
  by_cases eq : b = base + 16
  · rw [eq, Function.update_self] at live
    cases live
    rw [eq]
    exact made.block fits
  · rw [Function.update_of_ne eq] at live
    exact made.block_of_live inv live

theorem Block.helem {b n : ℕ} (ok : RegionsOk s) (block : Block s b n) (bad : Bool) :
    State.getHeapObj b = b - 16 ∧ s.heapElemValid bad (b - 16) = true := by
  have above := block.above
  have words := ok.words
  have bound : b - 16 + (s.capacity b + 16) ≤ s.ulMaxAddr := (ok.bounds _ block.region).2
  refine ⟨sub32_of_le (show 16 ≤ b by omega) (by omega), ?_⟩
  have header : s.within (b - 16) (b - 16) heapOverhead = true := by
    apply within_of_mem block.region (le_refl _) _ (le_refl _)
    · show b - 16 + 16 ≤ b - 16 + (s.capacity b + 16)
      omega
    · show b - 16 < b - 16 + (s.capacity b + 16)
      omega
  unfold State.heapElemValid
  rw [header, block.magic]
  rfl

theorem free_block {b n : ℕ} (ok : RegionsOk s) (block : Block s b n) (below : b < s.ulMaxAddr)
    (bad : Bool) (scribble : Mem) :
    s.free b bad scribble =
      ({ s with regions := s.regions.erase (s.regionOf b) }.scribbled scribble, true) := by
  have above := block.above
  obtain ⟨helem, valid⟩ := block.helem ok bad
  unfold State.free
  rw [helem]
  dsimp only
  rw [if_neg (by omega), valid, if_neg (by decide), show b - 16 + 4 = b - 12 by omega, block.lpMem]
  unfold State.ufree
  -- no other block of the C library starts here
  have found : (s.regions.find? fun r => r.base == b - 16) = some (s.regionOf b) := by
    have starts : ((s.regionOf b).base == b - 16) = true := beq_self_eq_true (b - 16)
    have some_eq : (s.regions.find? fun r => r.base == b - 16).isSome = true :=
      List.find?_isSome.mpr ⟨s.regionOf b, block.region, starts⟩
    obtain ⟨r, found⟩ := Option.isSome_iff_exists.mp some_eq
    have base : r.base = b - 16 := 
      eq_of_beq (List.find?_some (p := fun r : Region => r.base == b - 16) found)
    have mem := List.mem_of_find?_eq_some found
    have size := ok.sizes r mem
    rw [found, ok.region_eq mem block.region (by simp only; omega) (by simp only; omega)]
    rfl
  rw [found]

theorem Inv.freed {b n : ℕ} (inv : Inv s) (live : s.live b = some n) (scribble : Mem) :
    let s' := { s with regions := s.regions.erase (s.regionOf b) }.scribbled scribble
    Inv { s' with live := Function.update s.live b none } ∧ KeepsBut s s' b := by
  intro s'
  have block := inv.blocks b n live
  have held : ∀ c m, c ≠ b → s.live c = some m → s.regionOf c ∈ s'.regions := by
    intro c m ne live'
    have block' := inv.blocks c m live'
    have above := block.above
    have above' := block'.above
    refine (List.mem_erase_of_ne ?_).mpr block'.region
    intro eq
    have base : c - 16 = b - 16 := congrArg Region.base eq
    omega
  have keeps : ∀ c m, c ≠ b → s.live c = some m → ∀ a, c - 16 ≤ a → a < c + s.capacity c →
      s'.mem a = s.mem a := by
    intro c m ne live' a low high
    have above' := (inv.blocks c m live').above
    refine if_pos (owns_of_mem (held c m ne live') low ?_)
    show a < c - 16 + (s.capacity c + 16)
    omega
  refine ⟨⟨?_, ?_⟩, ?_⟩
  · apply RegionsOk.withLive
    have sub : s'.regions.Sublist s.regions := List.erase_sublist
    exact ⟨inv.apart.sublist sub, fun r mem => inv.bounds r (sub.subset mem),
      fun r mem => inv.sizes r (sub.subset mem), inv.words, inv.intact⟩
  · intro c m (live' : Function.update s.live b none c = some m)
    apply Block.withLive
    have ne : c ≠ b := by
      intro eq
      rw [eq, Function.update_self] at live'
      cases live'
    rw [Function.update_of_ne ne] at live'
    refine (inv.blocks c m live').congr ?_ (held c m ne live')
    intro a low high
    exact keeps c m ne live' a low (by omega)
  · intro c m ne live' i lt
    have holds := (inv.blocks c m live').holds
    exact keeps c m ne live' _ (by omega) (by omega)

theorem AllocLaw.withLive {p : ℕ} (law : AllocLaw s dwFlags dwBytes s' p) (live : ℕ → Option ℕ) :
    AllocLaw s dwFlags dwBytes { s' with live := live } p :=
  ⟨law.keeps, law.fresh, law.rounds, law.zeroed⟩

theorem MoveLaw.withLive {lpMem old p : ℕ} (law : MoveLaw s dwFlags lpMem old dwBytes s' p)
    (live : ℕ → Option ℕ) : MoveLaw s dwFlags lpMem old dwBytes { s' with live := live } p :=
  ⟨law.others, law.failed, law.fresh, law.rounds, law.kept, law.zeroed⟩

theorem alloc_law {p : ℕ} {env : Env} (inv : Inv s) (fits : AllocFits dwBytes env)
    (done : s.alloc dwFlags dwBytes env = some (s', p)) :
    AllocLaw s dwFlags dwBytes s' p ∧ (p = 0 → Inv s') ∧
      (p ≠ 0 → Inv { s' with live := Function.update s.live p (some dwBytes) }) := by
  by_cases given : env.given = none
  · obtain ⟨rfl, rfl⟩ := alloc_none given done
    refine ⟨⟨?_, fun ne => absurd rfl ne, fun ne => absurd rfl ne, fun ne => absurd rfl ne⟩,
      fun _ => inv.scribbled _, fun ne => absurd rfl ne⟩
    exact inv.keeps_of_owns fun a owned => scribbled_mem_of_owns owned
  · have fits := fits given
    obtain ⟨base, rfl, made⟩ := alloc_some given inv.words fits done
    refine ⟨⟨inv.keeps_of_owns made.keeps, fun _ => made.fresh inv, ?_, ?_⟩, ?_,
      fun _ => made.inv inv fits⟩
    · intro _
      unfold Fits at fits
      omega
    · intro _ zero i lt
      exact made.zeroed zero i (lt_of_lt_of_le lt fits.le_heapAlign)
    · intro eq
      omega

theorem memcpy_of_mem {base n : ℕ} (dst src k : ℕ) (mem : ⟨base, n⟩ ∈ s.regions) (low : base ≤ dst)
    (high : dst + k ≤ base + n) :
    ∃ m, s.memcpy dst src k = { s with mem := m } ∧ (∀ i < k, m (dst + i) = s.mem (src + i)) ∧
      ∀ a, a < dst ∨ dst + k ≤ a → m a = s.mem a := by
  by_cases empty : k = 0
  · subst empty
    exact ⟨s.mem, rfl, fun i lt => absurd lt (Nat.not_lt_zero i), fun _ _ => rfl⟩
  · refine ⟨_, put_of_mem mem low (show dst < base + n by omega) low high empty _, ?_, ?_⟩
    · intro i lt
      show (if dst ≤ dst + i ∧ dst + i < dst + k then s.mem (src + (dst + i - dst))
        else s.mem (dst + i)) = s.mem (src + i)
      rw [if_pos (by omega), Nat.add_sub_cancel_left]
    · intro a outside
      exact if_neg (by omega)

/-- `Free` of a block whether or not its address passes the check: a block of no bytes at the
end of the memory is leaked. -/
theorem Inv.free {b n : ℕ} (inv : Inv s) (live : s.live b = some n) (bad : Bool) (scribble : Mem) :
    let s' := (s.free b bad scribble).1
    Inv { s' with live := Function.update s.live b none } ∧ KeepsBut s s' b := by
  by_cases below : b < s.ulMaxAddr
  · rw [free_block inv.toRegionsOk (inv.blocks b n live) below]
    exact inv.freed live scribble
  · have same : s.free b bad scribble = (s, false) := if_pos (.inl (not_lt.mp below))
    rw [same]
    refine ⟨⟨inv.toRegionsOk.withLive _, ?_⟩, fun _ _ _ _ _ _ => rfl⟩
    intro c m (live' : Function.update s.live b none c = some m)
    apply Block.withLive
    by_cases eq : c = b
    · rw [eq, Function.update_self] at live'
      cases live'
    · rw [Function.update_of_ne eq] at live'
      exact inv.blocks c m live'

theorem free_withLive (b : ℕ) (bad : Bool) (scribble : Mem) (live : ℕ → Option ℕ) :
    (State.free { s with live := live } b bad scribble).1 =
      { (s.free b bad scribble).1 with live := live } := by
  have same : ∀ helem, State.heapElemValid { s with live := live } bad helem =
    s.heapElemValid bad helem := fun _ => rfl
  unfold State.free
  dsimp only
  rw [same]
  split
  · rfl
  · split
    · rfl
    · unfold State.ufree
      dsimp only
      split
      · rfl
      · rfl

theorem reAlloc_move {base b n : ℕ} (inv : Inv s) (live : s.live b = some n)
    (fits : Fits dwBytes) (more : s.capacity b < dwBytes) (made : Made s dwFlags dwBytes s' base)
    (zeros : dwFlags &&& heapZeroMemory ≠ 0 → Zeros s b n dwBytes) (bad : Bool) (scribble : Mem) :
    let t := ((s'.memcpy (base + 16) b (s.capacity b)).free b bad scribble).1
    MoveLaw s dwFlags b n dwBytes t (base + 16) ∧
      Inv { t with
        live := Function.update (Function.update s.live b none) (base + 16) (some dwBytes) } := by
  intro t
  have block := inv.blocks b n live
  have holds := block.holds
  have room := fits.le_heapAlign
  have fresh := made.fresh inv
  have ne : b ≠ base + 16 := by
    intro eq
    rw [← eq, live] at fresh
    cases fresh
  have new : ⟨base, heapAlign dwBytes + 16⟩ ∈ s'.regions := by
    rw [made.regions]
    exact List.mem_cons_self
  obtain ⟨m, copied, inside, outside⟩ :=
    memcpy_of_mem (base + 16) b (s.capacity b) new (by omega) (by omega)
  -- the new block is live, then written, and the old one freed
  have inv₁ := made.inv inv fits
  have newBlock := made.block fits
  obtain ⟨inv₂, keeps₂⟩ := inv₁.write (b := base + 16) (n := dwBytes) (m := m)
    (Function.update_self _ _ _) (by
      intro a away
      have holds := newBlock.holds
      have capacity : ∀ l, State.capacity { s' with live := l } (base + 16) =
        s'.capacity (base + 16) := fun _ => rfl
      rw [capacity] at away
      exact outside a (by omega))
  have live₂ : Function.update s.live (base + 16) (some dwBytes) b = some n := by
    rw [Function.update_of_ne ne]
    exact live
  obtain ⟨inv₃, keeps₃⟩ := inv₂.free live₂ bad scribble
  have t_eq : t = (State.free { s' with mem := m } b bad scribble).1 := by rw [← copied]
  have freed : ∀ live, (State.free { s' with mem := m, live := live } b bad scribble).1 =
      { t with live := live } := by
    intro live
    rw [t_eq]
    exact free_withLive (s := { s' with mem := m }) b bad scribble live
  dsimp only at inv₃ keeps₃
  rw [freed] at inv₃ keeps₃
  rw [Function.update_comm ne.symm] at inv₃
  have moved : ∀ i < dwBytes, t.mem (base + 16 + i) = m (base + 16 + i) :=
    keeps₃ (base + 16) dwBytes ne.symm (Function.update_self _ _ _)
  refine ⟨⟨?_, ?_, fun _ => .inr fresh, ?_, ?_, ?_⟩, inv₃⟩
  · -- the other blocks come through all three
    intro c k apart live' i lt
    have old : c ≠ base + 16 := by
      intro eq
      rw [← eq, live'] at fresh
      cases fresh
    have live₁ : Function.update s.live (base + 16) (some dwBytes) c = some k := by
      rw [Function.update_of_ne old]
      exact live'
    have written : m (c + i) = s'.mem (c + i) := keeps₂ c k old live₁ i lt
    have kept : t.mem (c + i) = m (c + i) := keeps₃ c k apart live₁ i lt
    rw [kept, written]
    exact inv.keeps_of_owns made.keeps c k live' i lt
  · intro eq
    omega
  · intro _
    unfold Fits at fits
    omega
  · intro _ i lt
    rw [moved i (by omega), inside i (by omega)]
    exact made.keeps _ (block.owns (by omega) (by omega))
  · intro _ zero i low lt
    rw [moved i lt]
    by_cases old : i < s.capacity b
    · rw [inside i old, made.keeps _ (block.owns (by omega) (by omega))]
      exact zeros zero i low (by omega)
    · rw [outside _ (by omega)]
      exact made.zeroed zero i (by omega)

theorem Inv.resize {b n : ℕ} (inv : Inv s) (live : s.live b = some n)
    (room : dwBytes ≤ s.capacity b) :
    ∃ m, s.setDword (b - 16) (b - 8) dwBytes = { s with mem := m } ∧
      (∀ c k, s.live c = some k → ∀ i < s.capacity c, m (c + i) = s.mem (c + i)) ∧
      Inv { s with mem := m, live := Function.update s.live b (some dwBytes) } := by
  have block := inv.blocks b n live
  have above := block.above
  have orgsize := block.orgsize
  have capacity_le : s.capacity b ≤ 0xFFFFFFE8 := by
    unfold State.capacity
    rw [heapAlign_of_le (le_trans orgsize (by decide))]
    omega
  let m := copyBytes s.mem (b - 8) dwBytes 0 4
  have apart : ∀ c k, c ≠ b → s.live c = some k →
      c + s.capacity c ≤ b - 16 ∨ b + s.capacity b ≤ c - 16 := fun c k ne live' =>
    inv.blocks_apart (inv.blocks c k live') block ne
  refine ⟨m, setDword_at (s := s) block.region (by omega) (by omega), ?_, ?_, ?_⟩
  · intro c k live' i lt
    have above' := (inv.blocks c k live').above
    by_cases eq : c = b
    · exact copyBytes_of_not_mem (by omega)
    · have := apart c k eq live'
      exact copyBytes_of_not_mem (by omega)
  · exact ⟨inv.apart, inv.bounds, inv.sizes, inv.words, inv.intact⟩
  · intro c k (live' : Function.update s.live b (some dwBytes) c = some k)
    by_cases eq : c = b
    · rw [eq, Function.update_self] at live'
      cases live'
      rw [eq]
      have away : ∀ a, a + 4 ≤ b - 8 ∨ b - 8 + 4 ≤ a → word m a 4 = word s.mem a 4 := by
        intro a outside
        exact word_copyBytes_of_apart outside
      have capacity : heapAlign (word m (b - 4) 4) = s.capacity b :=
        congrArg heapAlign (away _ (by omega))
      refine ⟨above, block.aligned, (away _ (by omega)).trans block.magic,
        (away _ (by omega)).trans block.lpMem, ?_, ?_, ?_, ?_⟩
      · exact word_copyBytes_self (by norm_num; omega)
      · exact (away _ (by omega)).trans_le orgsize
      · show (⟨b - 16, heapAlign (word m (b - 4) 4) + 16⟩ : Region) ∈ s.regions
        rw [capacity]
        exact block.region
      · show dwBytes ≤ heapAlign (word m (b - 4) 4)
        rw [capacity]
        exact room
    · rw [Function.update_of_ne eq] at live'
      have block' := inv.blocks c k live'
      have := apart c k eq live'
      have kept : Block { s with mem := m } c k := by
        refine block'.congr ?_ block'.region
        intro a low high
        exact copyBytes_of_not_mem (by omega)
      exact kept.withLive _

end Steps

/-! ## Runs -/

section Runs

variable {s s' : State} {r : ℕ}

theorem step_alloc {dwFlags dwBytes : UInt32} {env : Env} (inv : Inv s)
    (fits : AllocFits dwBytes.toNat env) (done : step s (.alloc dwFlags dwBytes env) = some (s', r)) :
    Inv s' ∧ AllocLaw s dwFlags.toNat dwBytes.toNat s' r := by
  obtain ⟨⟨t, p⟩, alloc, rest⟩ := Option.bind_eq_some_iff.mp done
  obtain ⟨law, failed, given⟩ := alloc_law inv fits alloc
  dsimp only at rest
  by_cases null : p = 0
  · rw [if_pos null] at rest
    cases rest
    rw [null] at law
    exact ⟨failed null, law⟩
  · rw [if_neg null] at rest
    cases rest
    exact ⟨given null, law.withLive _⟩

theorem reAlloc_live {dwFlags dwBytes b n p : ℕ} {bad : Bool} {env : Env} {scribble : Mem}
    (inv : Inv s) (live : s.live b = some n) (pos : dwBytes ≠ 0)
    (fits : MoveFits s dwFlags b n dwBytes env)
    (done : s.reAlloc dwFlags b dwBytes bad env scribble = some (s', p)) :
    p ≠ 0 ∧ MoveLaw s dwFlags b n dwBytes s' p ∧
      Inv { s' with live := Function.update (Function.update s.live b none) p (some dwBytes) } := by
  have block := inv.blocks b n live
  have above := block.above
  have holds := block.holds
  obtain ⟨helem, valid⟩ := block.helem inv.toRegionsOk bad
  unfold State.reAlloc at done
  rw [helem, if_neg pos, if_neg (by omega), valid, if_neg (by decide)] at done
  dsimp only at done
  rw [show b - 16 + 12 = b - 4 by omega, show b - 16 + 8 = b - 8 by omega] at done
  by_cases room : dwBytes ≤ s.capacity b
  · rw [if_pos (by exact room)] at done
    obtain ⟨m, written, kept, inv'⟩ := inv.resize live room
    rw [written] at done
    cases done
    have keeps : Keeps s { s with mem := m } := by
      intro c k live' i lt
      have holds' := (inv.blocks c k live').holds
      exact kept c k live' i (by omega)
    have orgsize := block.orgsize
    refine ⟨by omega, ⟨fun c k _ => keeps c k, fun _ => keeps, fun _ => .inl rfl, ?_, ?_, ?_⟩, ?_⟩
    · intro _
      have capacity : s.capacity b = (word s.mem (b - 4) 4 + 7) / 8 * 8 :=
        heapAlign_of_le (le_trans orgsize (by decide))
      omega
    · intro _ i lt
      exact kept b n live i (by omega)
    · intro _ zero i low lt
      exact (kept b n live i (by omega)).trans (fits.zeros zero i low (by omega))
    · rw [Function.update_idem]
      exact inv'
  · rw [if_neg (by exact room)] at done
    have room := not_le.mp room
    obtain ⟨given, small⟩ := fits.room room
    split at done
    · cases done
    · rename_i t q alloc
      obtain ⟨base, rfl, made⟩ := alloc_some given inv.words small alloc
      rw [if_neg (show ¬dwBytes < heapAlign (word s.mem (b - 4) 4) from not_lt.mpr room.le)] at done
      cases done
      obtain ⟨law, inv'⟩ := reAlloc_move inv live small room made fits.zeros bad scribble
      exact ⟨Nat.succ_ne_zero _, law, inv'⟩

theorem moveLaw_failed {dwFlags dwBytes b n : ℕ} : MoveLaw s dwFlags b n dwBytes s 0 :=
  ⟨fun _ _ _ _ _ _ => rfl, fun _ _ _ _ _ _ => rfl, fun ne => absurd rfl ne,
    fun ne => absurd rfl ne, fun ne => absurd rfl ne, fun ne => absurd rfl ne⟩

theorem Inv.live_zero (inv : Inv s) : s.live 0 = none := by
  rw [Option.eq_none_iff_forall_ne_some]
  intro n live
  have above := (inv.blocks 0 n live).above
  omega

theorem step_reAlloc {dwFlags lpMem dwBytes : UInt32} {bad : Bool} {env : Env} {scribble : Mem}
    (inv : Inv s) (fits : OpFits s (.reAlloc dwFlags lpMem dwBytes bad env scribble))
    (done : step s (.reAlloc dwFlags lpMem dwBytes bad env scribble) = some (s', r)) :
    Inv s' ∧ Law s (.reAlloc dwFlags lpMem dwBytes bad env scribble) s' r := by
  suffices h : Inv s' ∧ match s.live lpMem.toNat with
      | some old => MoveLaw s dwFlags.toNat lpMem.toNat old dwBytes.toNat s' r
      | none =>
        if lpMem = 0 then AllocLaw s dwFlags.toNat dwBytes.toNat s' r
        else r = 0 ∧ s'.mem = s.mem from ⟨h.1, h.1.blocksOk, h.2⟩
  obtain ⟨⟨t, p⟩, reAlloc, rest⟩ := Option.bind_eq_some_iff.mp done
  dsimp only at rest
  by_cases empty : dwBytes = 0
  · -- nothing is done
    subst empty
    unfold State.reAlloc at reAlloc
    rw [if_pos (by rfl)] at reAlloc
    cases reAlloc
    rw [if_pos rfl] at rest
    cases rest
    refine ⟨inv, ?_⟩
    split
    · exact moveLaw_failed
    · split
      · exact ⟨fun _ _ _ _ _ => rfl, fun ne => absurd rfl ne, fun ne => absurd rfl ne,
          fun ne => absurd rfl ne⟩
      · exact ⟨rfl, rfl⟩
  · have needs := fits empty
    have pos : dwBytes.toNat ≠ 0 := fun eq => empty (UInt32.toNat_inj.mp eq)
    cases live : s.live lpMem.toNat with
    | some n =>
      rw [live] at needs
      obtain ⟨ne, law, inv'⟩ := reAlloc_live inv live pos needs reAlloc
      rw [if_neg ne] at rest
      cases rest
      exact ⟨inv', law.withLive _⟩
    | none =>
      rw [live] at needs
      obtain ⟨null, needs⟩ : lpMem.toNat = 0 ∧ AllocFits dwBytes.toNat env := needs
      have null : lpMem = 0 := UInt32.toNat_inj.mp null
      subst null
      unfold State.reAlloc at reAlloc
      rw [if_neg pos, if_pos (by rfl)] at reAlloc
      dsimp only
      rw [if_pos rfl]
      obtain ⟨law, failed, given⟩ := alloc_law inv needs reAlloc
      by_cases null : p = 0
      · rw [if_pos null] at rest
        cases rest
        rw [null] at law
        exact ⟨failed null, law⟩
      · rw [if_neg null] at rest
        cases rest
        have same : Function.update s.live (0 : UInt32).toNat none = s.live :=
          Function.update_eq_self_iff.mpr inv.live_zero.symm
        rw [same]
        exact ⟨given null, law.withLive _⟩

theorem step_free {lpMem : UInt32} {bad : Bool} {scribble : Mem} (inv : Inv s)
    (fits : OpFits s (.free lpMem bad scribble))
    (done : step s (.free lpMem bad scribble) = some (s', r)) :
    Inv s' ∧ match s.live lpMem.toNat with
      | some _ => r = 1 ∧ KeepsBut s s' lpMem.toNat
      | none => r = 0 ∧ s'.mem = s.mem := by
  simp only [OpFits] at fits
  simp only [step] at done
  cases live : s.live lpMem.toNat with
  | some n =>
    rw [live] at fits
    obtain ⟨inv', keeps⟩ := inv.free live bad scribble
    rw [free_block inv.toRegionsOk (inv.blocks _ n live) fits bad scribble] at done inv' keeps
    cases done
    exact ⟨inv', rfl, keeps⟩
  | none =>
    rw [live] at fits
    have same : s.free lpMem.toNat bad scribble = (s, false) := by
      unfold State.free
      dsimp only
      by_cases range : lpMem.toNat ≥ s.ulMaxAddr ∨ lpMem.toNat < 0x10000
      · exact if_pos range
      · rw [if_neg range]
        exact if_pos (fits (by omega) (by omega))
    rw [same] at done
    cases done
    exact ⟨inv, rfl, rfl⟩

theorem size_live {b n : ℕ} (inv : Inv s) (live : s.live b = some n) (below : b < s.ulMaxAddr)
    (bad : Bool) : s.size b bad = n := by
  have block := inv.blocks b n live
  have above := block.above
  obtain ⟨helem, valid⟩ := block.helem inv.toRegionsOk bad
  unfold State.size
  dsimp only
  rw [if_neg (by omega), if_neg (by omega), helem, valid, if_neg (by decide),
    show b - 16 + 8 = b - 8 by omega]
  exact block.cursize

theorem step_store {lpMem : UInt32} {offset : ℕ} {value : UInt8} (inv : Inv s)
    (done : step s (.store lpMem offset value) = some (s', r)) :
    Inv s' ∧ KeepsBut s s' lpMem.toNat := by
  simp only [step] at done
  cases live : s.live lpMem.toNat with
  | none =>
    rw [live] at done
    cases done
  | some n =>
    rw [live] at done
    dsimp only at done
    by_cases lt : offset < n
    · rw [if_pos lt] at done
      cases done
      have holds := (inv.blocks _ n live).holds
      apply inv.write live
      intro a outside
      exact Function.update_of_ne (by omega) _ _
    · rw [if_neg lt] at done
      cases done

theorem step_lawful {op : Op} (inv : Inv s) (fits : OpFits s op)
    (done : step s op = some (s', r)) : Inv s' ∧ Law s op s' r := by
  cases op with
  | alloc dwFlags dwBytes env =>
    obtain ⟨inv', law⟩ := step_alloc inv fits done
    exact ⟨inv', inv'.blocksOk, law⟩
  | reAlloc dwFlags lpMem dwBytes bad env scribble => exact step_reAlloc inv fits done
  | free lpMem bad scribble =>
    obtain ⟨inv', law⟩ := step_free inv fits done
    exact ⟨inv', inv'.blocksOk, law⟩
  | size lpMem bad =>
    cases done
    refine ⟨inv, inv.blocksOk, ?_⟩
    intro n live
    exact size_live inv live (fits (by rw [live]; exact Option.some_ne_none n)) bad
  | store lpMem offset value =>
    obtain ⟨inv', law⟩ := step_store inv done
    exact ⟨inv', inv'.blocksOk, law⟩

end Runs

/-- Every call of a run pays what it owes. -/
def Lawful : State → List Op → Prop
  | _, [] => True
  | s, op :: ops => ∀ s' r, step s op = some (s', r) → Law s op s' r ∧ Lawful s' ops

/-- Every call of a run has what it needs. -/
def RunFits : State → List Op → Prop
  | _, [] => True
  | s, op :: ops => OpFits s op ∧ ∀ next ∈ step s op, RunFits next.1 ops

instance runFitsDecidable : (s : State) → (ops : List Op) → Decidable (RunFits s ops)
  | _, [] => .isTrue trivial
  | s, op :: ops =>
    haveI : ∀ t, Decidable (RunFits t ops) := fun t => runFitsDecidable t ops
    inferInstanceAs (Decidable (_ ∧ ∀ next ∈ step s op, RunFits next.1 ops))

theorem Inv.lawful {s : State} {ops : List Op} (inv : Inv s) (fits : RunFits s ops) :
    Lawful s ops := by
  induction ops generalizing s with
  | nil => trivial
  | cons op ops ih =>
    obtain ⟨now, later⟩ := fits
    intro s' r done
    obtain ⟨inv', law⟩ := step_lawful inv now done
    exact ⟨law, ih inv' (later (s', r) done)⟩

/-- The header of a block is found again, a block with room grows where it is, and one
without is copied. -/
def movedBlock : List Op :=
  [.alloc 8 5 ⟨some 0x10000, fun _ => 0xFF⟩, .store 0x10010 4 7,
    .reAlloc 8 0x10010 8 false ⟨none, fun _ => 0xFF⟩ fun _ => 0xFF,
    .reAlloc 8 0x10010 20 false ⟨some 0x10020, fun _ => 0xFF⟩ fun _ => 0xFF,
    .free 0x10010 false fun _ => 0xFF, .size 0x10030 false]

/-- A block that finds no room to grow is given back all the same. -/
def lostBlock : List Op :=
  [.alloc 0 8 ⟨some 0x10000, fun _ => 0⟩,
    .reAlloc 0 0x10010 16 false ⟨none, fun _ => 0⟩ fun _ => 0]

end Odin32.Os2Heap
