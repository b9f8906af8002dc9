import Odin32.LxReader
import Odin32.LxImageRead

/-! # The bytes both readers deliver

The byte of an image at an RVA, for arrays of objects that are page aligned and do not reach
into each other. All searches for the RVAs of a page end at the same object, so that a page is
in the image as a whole or not at all; the plain reader delivers the bytes of a range if all
of them are in the image, and an error otherwise. -/

set_option autoImplicit false

namespace Odin32.LxReader
open Word ByteMemory ByteTable LxPages LxFixups
open LxImageRead (seekObject_resume seekObject_stop)

/-- Objects in the order of their page aligned RVAs, whose sizes do not reach into the next
one. -/
structure Sorted (paObjects : List LxObject) : Prop where
  words : ∀ o ∈ paObjects, o.ulRVA < 0x100000000 ∧ o.cbVirtual < 0x100000000
  aligned : ∀ o ∈ paObjects, 0x1000 ∣ o.ulRVA
  apart : paObjects.Pairwise fun o o' =>
    o.ulRVA + o.cbPhysical ≤ o'.ulRVA ∧ o.ulRVA + o.cbVirtual ≤ o'.ulRVA

/-- The file data of the last object does not reach beyond its virtual size, and that of all
objects lies in the file. -/
structure Arranged (paObjects : List LxObject) : Prop extends Sorted paObjects where
  last : ∀ o ∈ paObjects.getLast?, o.cbPhysical ≤ o.cbVirtual
  inFile : ∀ o ∈ paObjects, o.offPEFile + o.cbPhysical < 0x100000000

theorem Sorted.tail {o : LxObject} {rest : List LxObject} (sorted : Sorted (o :: rest)) :
    Sorted rest where
  words o' h := sorted.words o' (List.mem_cons_of_mem o h)
  aligned o' h := sorted.aligned o' (List.mem_cons_of_mem o h)
  apart := sorted.apart.of_cons

theorem Arranged.tail {o : LxObject} {rest : List LxObject} (arranged : Arranged (o :: rest)) :
    Arranged rest where
  toSorted := arranged.toSorted.tail
  last o' h := by
    cases rest with
    | nil => cases h
    | cons next rest => exact arranged.last o' h
  inFile o' h := arranged.inFile o' (List.mem_cons_of_mem o h)

theorem objectLimit_aligned {o : LxObject} {rest : List LxObject} (sorted : Sorted (o :: rest)) :
    0x1000 ∣ objectLimit o rest ∧ objectLimit o rest < 0x100000000 := by
  cases rest with
  | nil =>
    have := sorted.aligned o List.mem_cons_self
    refine ⟨?_, add32_lt _ _⟩
    show 0x1000 ∣ add32 (alignPage o.cbVirtual) o.ulRVA
    unfold add32 alignPage u32
    omega
  | cons next rest =>
    have mem : next ∈ o :: next :: rest := List.mem_cons_of_mem o List.mem_cons_self
    exact ⟨sorted.aligned next mem, (sorted.words next mem).1⟩

theorem data_le_objectLimit {r : ℕ} {o : LxObject} {rest : List LxObject}
    (arranged : Arranged (o :: rest)) (low : o.ulRVA ≤ r) (high : r < objectLimit o rest) :
    o.ulRVA + o.cbPhysical ≤ objectLimit o rest := by
  cases rest with
  | nil =>
    have words := arranged.words o List.mem_cons_self
    have inside := arranged.last o rfl
    have limit : objectLimit o [] = add32 (alignPage o.cbVirtual) o.ulRVA := rfl
    rw [limit] at high ⊢
    -- an end beyond the address space would be in front of the RVA
    unfold add32 alignPage add32 u32 at *
    omega
  | cons next rest =>
    exact (List.rel_of_pairwise_cons arranged.apart List.mem_cons_self).1

theorem seekObject_found {r : ℕ} (i : ℕ) {paObjects : List LxObject} (arranged : Arranged paObjects)
    (low : ∀ o ∈ paObjects.head?, o.ulRVA ≤ r) {o : LxObject} {rest : List LxObject}
    (found : (seekObject r i paObjects).2 = o :: rest) :
    Arranged (o :: rest) ∧ o.ulRVA ≤ r ∧ r < objectLimit o rest := by
  induction paObjects generalizing i with
  | nil => cases found
  | cons o' rest' ih =>
    rw [seekObject] at found
    split at found
    · rename_i skip
      refine ih (i + 1) arranged.tail (fun next h => ?_) found
      cases rest' with
      | nil => cases h
      | cons next' rest' =>
        obtain rfl := Option.some.inj h
        exact skip
    · rename_i stop
      obtain ⟨rfl, rfl⟩ := List.cons.inj found
      exact ⟨arranged, low o' rfl, Nat.lt_of_not_le stop⟩

theorem seekObject_congr {r r' : ℕ} (i j : ℕ) {paObjects : List LxObject}
    (same : ∀ o rest, o :: rest <:+ paObjects → (objectLimit o rest ≤ r ↔ objectLimit o rest ≤ r')) :
    (seekObject r i paObjects).2 = (seekObject r' j paObjects).2 := by
  induction paObjects generalizing i j with
  | nil => rfl
  | cons o rest ih =>
    rw [seekObject, seekObject]
    by_cases skip : objectLimit o rest ≤ r
    · rw [if_pos skip, if_pos ((same o rest (List.suffix_refl _)).1 skip)]
      exact ih (i + 1) (j + 1) fun o' rest' suffix =>
        same o' rest' (suffix.trans (List.suffix_cons o rest))
    · rw [if_neg skip, if_neg fun h => skip ((same o rest (List.suffix_refl _)).2 h)]

theorem Sorted.suffix {paObjects objects : List LxObject} (sorted : Sorted paObjects)
    (suffix : objects <:+ paObjects) : Sorted objects where
  words o h := sorted.words o (suffix.mem h)
  aligned o h := sorted.aligned o (suffix.mem h)
  apart := sorted.apart.sublist suffix.sublist

theorem seekObject_page {paObjects : List LxObject} (sorted : Sorted paObjects) (r : ℕ) :
    (seekObject r 0 paObjects).2 = (seekObject (r / 0x1000 * 0x1000) 0 paObjects).2 := by
  refine seekObject_congr 0 0 fun o rest suffix => ?_
  have := (objectLimit_aligned (sorted.suffix suffix)).1
  omega

/-! ## The bytes -/

def byteOfObject (file : Mem) (r : ℕ) : List LxObject → Option UInt8
  | [] => none
  | o :: _ => some (if r < o.ulRVA + o.cbPhysical then file (r - o.ulRVA + o.offPEFile) else 0)

/-- The byte of the image at an RVA, if there is one. -/
def imageByte (pe : PeModule) (r : ℕ) : Option UInt8 :=
  byteOfObject pe.file r (seekObject r 0 pe.paObjects).2

def imageBytes (pe : PeModule) (r : ℕ) : ℕ → Option (List UInt8)
  | 0 => some []
  | n + 1 => do
    let b ← imageByte pe r
    let bs ← imageBytes pe (r + 1) n
    some (b :: bs)

theorem imageBytes_add (pe : PeModule) (r k n : ℕ) :
    imageBytes pe r (k + n) = (imageBytes pe r k).bind fun xs =>
      (imageBytes pe (r + k) n).map fun ys => xs ++ ys := by
  induction k generalizing r with
  | zero => simp [imageBytes]
  | succ k ih =>
    rw [Nat.add_right_comm, imageBytes, imageBytes, ih]
    cases imageByte pe r with
    | none => rfl
    | some b =>
      rw [show r + 1 + k = r + (k + 1) by omega]
      cases imageBytes pe (r + 1) k with
      | none => rfl
      | some xs => cases imageBytes pe (r + (k + 1)) n <;> rfl

/-- The image that a module's readers read: the header object lies at zero. -/
structure Readable (pe : PeModule) : Prop extends Arranged pe.paObjects where
  header : ∀ o ∈ pe.paObjects.head?, o.ulRVA = 0

theorem Readable.low {pe : PeModule} (readable : Readable pe) (r : ℕ) :
    ∀ o ∈ pe.paObjects.head?, o.ulRVA ≤ r := fun o h => by
  rw [readable.header o h]
  exact Nat.zero_le r

theorem imageBytes_eq_some {pe : PeModule} {r n : ℕ} {bs : List UInt8}
    (length : bs.length = n) (bytes : ∀ k (h : k < bs.length), imageByte pe (r + k) = some bs[k]) :
    imageBytes pe r n = some bs := by
  subst length
  induction bs generalizing r with
  | nil => rfl
  | cons b bs ih =>
    have first : imageByte pe r = some b := bytes 0 (Nat.succ_pos _)
    have rest : imageBytes pe (r + 1) bs.length = some bs := by
      refine ih fun k h => ?_
      rw [Nat.add_assoc, Nat.add_comm 1 k]
      exact bytes (k + 1) (Nat.succ_lt_succ h)
    rw [List.length_cons, imageBytes, first, rest]
    rfl

theorem imageBytes_none {pe : PeModule} {r n : ℕ} (outside : imageByte pe r = none) (pos : 0 < n) :
    imageBytes pe r n = none := by
  obtain ⟨n, rfl⟩ := Nat.exists_eq_succ_of_ne_zero (by omega : n ≠ 0)
  rw [imageBytes, outside]
  rfl

theorem seekObject_inside {r r' : ℕ} {paObjects : List LxObject} {o : LxObject}
    {rest : List LxObject} (found : (seekObject r 0 paObjects).2 = o :: rest) (le : r ≤ r')
    (inside : r' < objectLimit o rest) : (seekObject r' 0 paObjects).2 = o :: rest := by
  rw [← seekObject_resume le 0, found, seekObject_stop 0 inside]

/-! ## The plain reader -/

/-- What one round of the loop delivers. -/
def chunk (fPhysical : Bool) (file : Mem) (offFile k : ℕ) : UInt8 :=
  if fPhysical then file (offFile + k) else 0

/-- The RVA up to which a round delivers. -/
def chunkEnd (r : ℕ) (o : LxObject) (rest : List LxObject) : ℕ :=
  if r < o.ulRVA + o.cbPhysical then o.ulRVA + o.cbPhysical else objectLimit o rest

theorem imageBytes_chunk {pe : PeModule} (readable : Readable pe) {r n : ℕ} {o : LxObject}
    {rest : List LxObject} (found : (seekObject r 0 pe.paObjects).2 = o :: rest)
    (inside : r + n ≤ chunkEnd r o rest) :
    imageBytes pe r n = some (slice (chunk (decide (r < o.ulRVA + o.cbPhysical)) pe.file
      (add32 (sub32 r o.ulRVA) o.offPEFile)) 0 n) := by
  obtain ⟨arranged, low, high⟩ := seekObject_found 0 readable.toArranged (readable.low r) found
  have data := data_le_objectLimit arranged low high
  have limit := (objectLimit_aligned arranged.toSorted).2
  have inFile := arranged.inFile o List.mem_cons_self
  have offset : sub32 r o.ulRVA = r - o.ulRVA := sub32_of_le low (by omega)
  refine imageBytes_eq_some (length_slice _ _ _) fun k hk => ?_
  rw [length_slice] at hk
  have within : r + k < objectLimit o rest := by
    unfold chunkEnd at inside
    split at inside <;> omega
  rw [getElem_slice, Nat.zero_add, imageByte, seekObject_inside found (Nat.le_add_right r k) within,
    byteOfObject, chunk, offset]
  unfold chunkEnd at inside
  by_cases fPhysical : r < o.ulRVA + o.cbPhysical
  · rw [if_pos fPhysical] at inside
    rw [if_pos (by omega), if_pos (decide_eq_true fPhysical), add32_of_lt (by omega)]
    congr 2
    omega
  · rw [if_neg (by omega), if_neg (by simpa using fPhysical)]

theorem slice_split (f g : Mem) {n c : ℕ} (le : c ≤ n) :
    slice (fun i => if i < c then f i else g (i - c)) 0 n = slice f 0 c ++ slice g 0 (n - c) := by
  obtain ⟨k, rfl⟩ := Nat.exists_eq_add_of_le le
  rw [slice_add, Nat.add_sub_cancel_left]
  congr 1
  · exact slice_congr fun b _ hb => if_pos (by omega)
  · refine List.map_congr_left fun i _ => ?_
    show (if 0 + c + i < c then f (0 + c + i) else g (0 + c + i - c)) = g (0 + i)
    rw [if_neg (by omega)]
    congr 1
    omega

/-- A range of which a byte is not in the image is an error. -/
def expectBytes (bytes : Option (List UInt8)) : Except ApiRet (List UInt8) :=
  match bytes with
  | some bytes => .ok bytes
  | none => .error .invalidParameter

theorem readAtRVAFrom_spec {pe : PeModule} (readable : Readable pe) {rounds n r : ℕ}
    {paObjects : List LxObject}
    (same : ∀ r', r ≤ r' → (seekObject r' 0 paObjects).2 = (seekObject r' 0 pe.paObjects).2)
    (enough : n ≤ rounds) :
    (readAtRVAFrom pe.file rounds paObjects r n).map (fun buffer => slice buffer 0 n) =
      expectBytes (imageBytes pe r n) := by
  induction rounds generalizing n r paObjects with
  | zero =>
    obtain rfl : n = 0 := by omega
    rfl
  | succ rounds ih =>
    rw [readAtRVAFrom]
    by_cases none_left : n = 0
    · rw [if_pos none_left, none_left]
      rfl
    rw [if_neg none_left, same r (Nat.le_refl r)]
    cases found : (seekObject r 0 pe.paObjects).2 with
    | nil =>
      have outside : imageByte pe r = none := by rw [imageByte, found]; rfl
      rw [imageBytes_none outside (by omega)]
      rfl
    | cons o rest =>
      obtain ⟨arranged, low, high⟩ := seekObject_found 0 readable.toArranged (readable.low r) found
      have data := data_le_objectLimit arranged low high
      have limit := (objectLimit_aligned arranged.toSorted).2
      have dataEnd : add32 o.ulRVA o.cbPhysical = o.ulRVA + o.cbPhysical := add32_of_lt (by omega)
      have stop : (if decide (r < o.ulRVA + o.cbPhysical) = true then o.ulRVA + o.cbPhysical
          else objectLimit o rest) = chunkEnd r o rest := by
        simp only [decide_eq_true_eq, chunkEnd]
      have stop_gt : r < chunkEnd r o rest := by
        unfold chunkEnd
        split <;> assumption
      have stop_le : chunkEnd r o rest ≤ objectLimit o rest := by
        unfold chunkEnd
        split
        · exact data
        · exact Nat.le_refl _
      have size : sub32 (chunkEnd r o rest) r = chunkEnd r o rest - r :=
        sub32_of_le (by omega) (by omega)
      simp only [dataEnd, stop, size]
      obtain ⟨c, hc⟩ : ∃ c, c = min n (chunkEnd r o rest - r) := ⟨_, rfl⟩
      have next_rva : add32 r c = r + c := add32_of_lt (by omega)
      rw [← hc, next_rva]
      have bytes := imageBytes_chunk readable found (n := c) (by omega)
      have resumed : ∀ r', r + c ≤ r' →
          (seekObject r' 0 (o :: rest)).2 = (seekObject r' 0 pe.paObjects).2 := by
        intro r' le
        rw [← found, seekObject_resume (by omega) 0]
      have next := ih (n := n - c) resumed (by omega)
      rw [show n = c + (n - c) by omega, imageBytes_add, bytes, Nat.add_sub_cancel_left]
      cases read : readAtRVAFrom pe.file rounds (o :: rest) (r + c) (n - c) with
      | error e =>
        rw [read] at next
        cases rest_bytes : imageBytes pe (r + c) (n - c) with
        | some bs => rw [rest_bytes] at next; cases next
        | none =>
          rw [rest_bytes] at next
          obtain rfl : e = .invalidParameter := Except.error.inj next
          rfl
      | ok buffer =>
        rw [read] at next
        cases rest_bytes : imageBytes pe (r + c) (n - c) with
        | none => rw [rest_bytes] at next; cases next
        | some bs =>
          rw [rest_bytes] at next
          obtain rfl := Except.ok.inj next
          have split := slice_split (chunk (decide (r < o.ulRVA + o.cbPhysical)) pe.file
            (add32 (sub32 r o.ulRVA) o.offPEFile)) buffer (Nat.le_add_right c (n - c))
          rw [Nat.add_sub_cancel_left] at split
          exact congrArg Except.ok split

theorem readAtRVA_spec {pe : PeModule} (readable : Readable pe) (r n : ℕ) :
    (readAtRVA pe r n).map (fun buffer => slice buffer 0 n) = expectBytes (imageBytes pe r n) :=
  readAtRVAFrom_spec readable (fun _ _ => rfl) (Nat.le_refl n)

end Odin32.LxReader
