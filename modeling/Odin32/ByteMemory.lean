import Mathlib.Data.Set.Basic
import Mathlib.Tactic.Ring

/-! # Byte memory

Memory as a function from addresses to bytes, with little-endian words of any
length, and the fold of patches that keep to places of their own: when the places
of a list of patches are pairwise apart, every byte ends up as its one patch makes
it of the memory before the fold. -/

set_option autoImplicit false

namespace Odin32.ByteMemory

abbrev Mem := ℕ → UInt8

/-- Byte `k` of a number, lowest first. -/
def byteOf (v k : ℕ) : UInt8 := UInt8.ofNat (v / 0x100 ^ k)

/-- The number whose `n` bytes stand at `a`. -/
def word (m : Mem) : ℕ → ℕ → ℕ
  | _, 0 => 0
  | a, n + 1 => (m a).toNat + 0x100 * word m (a + 1) n

/-- Puts the `n` bytes of `v` from byte `src` on at `a`. -/
def copyBytes (m : Mem) (a v src n : ℕ) : Mem :=
  fun b => if a ≤ b ∧ b < a + n then byteOf v (src + (b - a)) else m b

theorem byteOf_eq_iff {v w k : ℕ} :
    byteOf v k = byteOf w k ↔ v / 0x100 ^ k % 0x100 = w / 0x100 ^ k % 0x100 := by
  rw [← UInt8.toNat_inj]
  exact Iff.rfl

theorem byteOf_congr {v w n k : ℕ} (h : v % 0x100 ^ n = w % 0x100 ^ n) (hk : k < n) :
    byteOf v k = byteOf w k := by
  apply byteOf_eq_iff.mpr
  obtain ⟨j, rfl⟩ := Nat.exists_eq_add_of_lt hk
  have split : ∀ x : ℕ, x / 0x100 ^ k % 0x100 = x % 0x100 ^ (k + j + 1) / 0x100 ^ k % 0x100 := by
    intro x
    rw [show (0x100 : ℕ) ^ (k + j + 1) = 0x100 ^ k * 0x100 ^ (j + 1) by ring,
      Nat.mod_mul_right_div_self, pow_succ', Nat.mod_mul_right_mod]
  rw [split v, split w, h]

theorem byteOf_succ (v k : ℕ) : byteOf v (k + 1) = byteOf (v / 0x100) k := by
  unfold byteOf
  rw [pow_succ', Nat.div_div_eq_div_mul]

theorem byteOf_word (m : Mem) (a : ℕ) {n k : ℕ} (hk : k < n) :
    byteOf (word m a n) k = m (a + k) := by
  induction n generalizing a k with
  | zero => exact absurd hk (Nat.not_lt_zero k)
  | succ n ih =>
    have hlow : (m a).toNat < 0x100 := (m a).toNat_lt
    cases k with
    | zero =>
      apply UInt8.toNat_inj.mp
      show word m a (n + 1) / 0x100 ^ 0 % 0x100 = (m a).toNat
      rw [pow_zero, Nat.div_one, word]
      omega
    | succ k =>
      rw [byteOf_succ, word,
        show ((m a).toNat + 0x100 * word m (a + 1) n) / 0x100 = word m (a + 1) n by omega,
        ih (a + 1) (by omega)]
      congr 1
      omega

theorem word_lt (m : Mem) (a n : ℕ) : word m a n < 0x100 ^ n := by
  induction n generalizing a with
  | zero => exact Nat.one_pos
  | succ n ih =>
    have := ih (a + 1)
    have hlow : (m a).toNat < 0x100 := (m a).toNat_lt
    rw [word, pow_succ']
    omega

theorem word_congr {m m' : Mem} {a a' n : ℕ} (h : ∀ k < n, m (a + k) = m' (a' + k)) :
    word m a n = word m' a' n := by
  induction n generalizing a a' with
  | zero => rfl
  | succ n ih =>
    rw [word, word, show m a = m' a' from h 0 (by omega)]
    have tail : word m (a + 1) n = word m' (a' + 1) n := by
      apply ih
      intro k hk
      rw [Nat.add_right_comm a, Nat.add_right_comm a']
      exact h (k + 1) (by omega)
    rw [tail]

theorem word_mod (m : Mem) (a : ℕ) {n k : ℕ} (hk : k ≤ n) :
    word m a n % 0x100 ^ k = word m a k := by
  induction k generalizing a n with
  | zero => exact Nat.mod_one _
  | succ k ih =>
    cases n with
    | zero => exact absurd hk (Nat.not_succ_le_zero k)
    | succ n =>
      have tail := ih (a + 1) (n := n) (by omega)
      have hlow : (m a).toNat < 0x100 := (m a).toNat_lt
      rw [word, word, pow_succ', Nat.mod_mul,
        show ((m a).toNat + 0x100 * word m (a + 1) n) / 0x100 = word m (a + 1) n by omega, tail]
      omega

theorem copyBytes_of_mem {m : Mem} {a v src n b : ℕ} (h : a ≤ b ∧ b < a + n) :
    copyBytes m a v src n b = byteOf v (src + (b - a)) := if_pos h

theorem copyBytes_of_not_mem {m : Mem} {a v src n b : ℕ} (h : ¬(a ≤ b ∧ b < a + n)) :
    copyBytes m a v src n b = m b := if_neg h

theorem word_of_bytes {m : Mem} {a v n : ℕ} (bytes : ∀ k < n, m (a + k) = byteOf v k) :
    word m a n = v % 0x100 ^ n := by
  induction n generalizing a v with
  | zero => exact (Nat.mod_one v).symm
  | succ n ih =>
    have first : (m a).toNat = v % 0x100 := by
      have eq : m a = byteOf v 0 := bytes 0 (Nat.succ_pos n)
      rw [eq, byteOf, pow_zero, Nat.div_one]
      exact UInt8.toNat_ofNat'
    have tail : word m (a + 1) n = v / 0x100 % 0x100 ^ n := by
      apply ih
      intro k hk
      rw [Nat.add_right_comm, ← byteOf_succ]
      exact bytes (k + 1) (Nat.succ_lt_succ hk)
    rw [word, first, tail, pow_succ', Nat.mod_mul]

theorem word_copyBytes_self {m : Mem} {a v n : ℕ} (fits : v < 0x100 ^ n) :
    word (copyBytes m a v 0 n) a n = v := by
  have bytes : ∀ k < n, copyBytes m a v 0 n (a + k) = byteOf v k := by
    intro k hk
    rw [copyBytes_of_mem (by omega)]
    congr 1
    omega
  rw [word_of_bytes bytes, Nat.mod_eq_of_lt fits]

theorem word_copyBytes_of_apart {m : Mem} {a b v n k : ℕ} (apart : a + n ≤ b ∨ b + k ≤ a) :
    word (copyBytes m b v 0 k) a n = word m a n := by
  apply word_congr
  intro i hi
  exact copyBytes_of_not_mem (by omega)

section Patches

variable {α ι β : Type}

/-- A patch of the places `s`: it leaves all others alone, and what it makes of
these depends on these only. -/
structure LocalOn (s : Set ι) (f : (ι → β) → (ι → β)) : Prop where
  frame : ∀ m b, b ∉ s → f m b = m b
  reads : ∀ m m', (∀ b ∈ s, m b = m' b) → ∀ b ∈ s, f m b = f m' b

theorem LocalOn.id : LocalOn (∅ : Set ι) (fun m : ι → β => m) where
  frame _ _ _ := rfl
  reads _ _ h b hb := h b hb

theorem foldl_apply_of_not_mem {s : α → Set ι} {p : α → (ι → β) → (ι → β)} {l : List α}
    (hp : ∀ a ∈ l, LocalOn (s a) (p a)) {b : ι} (hb : ∀ a ∈ l, b ∉ s a) (m : ι → β) :
    l.foldl (fun m a => p a m) m b = m b := by
  induction l generalizing m with
  | nil => rfl
  | cons a l ih =>
    rw [List.foldl_cons,
      ih (fun c hc => hp c (List.mem_cons_of_mem a hc))
        (fun c hc => hb c (List.mem_cons_of_mem a hc))]
    exact (hp a List.mem_cons_self).frame m b (hb a List.mem_cons_self)

theorem foldl_apply_of_mem {s : α → Set ι} {p : α → (ι → β) → (ι → β)} {l : List α}
    (hp : ∀ a ∈ l, LocalOn (s a) (p a))
    (apart : l.Pairwise fun a c => ∀ b ∈ s a, b ∉ s c)
    {a : α} (ha : a ∈ l) {b : ι} (hb : b ∈ s a) (m : ι → β) :
    l.foldl (fun m a => p a m) m b = p a m b := by
  induction l generalizing m with
  | nil => exact absurd ha List.not_mem_nil
  | cons c l ih =>
    have hp' : ∀ a ∈ l, LocalOn (s a) (p a) := fun d hd => hp d (List.mem_cons_of_mem c hd)
    obtain ⟨hc, apart'⟩ := List.pairwise_cons.mp apart
    rw [List.foldl_cons]
    rcases List.mem_cons.mp ha with rfl | ha
    · exact foldl_apply_of_not_mem hp' (fun d hd => hc d hd b hb) _
    · rw [ih hp' apart' ha]
      -- the head patch leaves the places of `a` as they are
      apply (hp' a ha).reads _ _ _ b hb
      intro b' hb'
      apply (hp c List.mem_cons_self).frame
      intro hbc
      exact hc a ha b' hbc hb'

end Patches

/-- The patch that rewrites one word by a function of its value. -/
theorem localOn_copyBytes_word (a n : ℕ) (g : ℕ → ℕ) :
    LocalOn { b | a ≤ b ∧ b < a + n } fun m => copyBytes m a (g (word m a n)) 0 n where
  frame _ _ h := copyBytes_of_not_mem h
  reads m m' h b hb := by
    have same : word m a n = word m' a n :=
      word_congr fun k hk => h (a + k) ⟨Nat.le_add_right a k, Nat.add_lt_add_left hk a⟩
    rw [copyBytes_of_mem hb, copyBytes_of_mem hb, same]

theorem localOn_copyBytes_const (a v src n : ℕ) :
    LocalOn { b | a ≤ b ∧ b < a + n } fun m => copyBytes m a v src n where
  frame _ _ h := copyBytes_of_not_mem h
  reads m m' _ b hb := by rw [copyBytes_of_mem hb, copyBytes_of_mem hb]

end Odin32.ByteMemory
