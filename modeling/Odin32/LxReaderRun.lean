import Odin32.LxReaderImage

/-! # Readers over whole runs

What is in the buffer of a reader is a page of the image. So a read delivers the bytes that
the plain reader delivers, and a string is delivered up to its end, wherever the reader has
been before and from whichever reader it was assigned. -/

set_option autoImplicit false

namespace Odin32.LxReader
open Word ByteMemory ByteTable LxPages LxFixups

/-! ## Ranges of the image -/

theorem imageBytes_length {pe : PeModule} {r n : ℕ} {bs : List UInt8}
    (bytes : imageBytes pe r n = some bs) : bs.length = n := by
  induction n generalizing r bs with
  | zero => rw [← Option.some.inj bytes]; rfl
  | succ n ih =>
    rw [imageBytes] at bytes
    obtain ⟨b, -, bytes⟩ := Option.bind_eq_some_iff.1 bytes
    obtain ⟨rest, tail, bytes⟩ := Option.bind_eq_some_iff.1 bytes
    rw [← Option.some.inj bytes, List.length_cons, ih tail]

theorem imageBytes_split {pe : PeModule} {r k n : ℕ} {bs : List UInt8}
    (bytes : imageBytes pe r n = some bs) (le : k ≤ n) :
    imageBytes pe r k = some (bs.take k) ∧ imageBytes pe (r + k) (n - k) = some (bs.drop k) := by
  obtain ⟨m, rfl⟩ := Nat.exists_eq_add_of_le le
  rw [imageBytes_add] at bytes
  obtain ⟨xs, front, bytes⟩ := Option.bind_eq_some_iff.1 bytes
  obtain ⟨ys, back, rfl⟩ := Option.map_eq_some_iff.1 bytes
  have len := imageBytes_length front
  rw [Nat.add_sub_cancel_left, front, back, ← len, List.take_left, List.drop_left]
  exact ⟨rfl, rfl⟩

theorem imageByte_page {pe : PeModule} (readable : Readable pe) (r : ℕ) :
    imageByte pe r = none ↔ imageByte pe (r / 0x1000 * 0x1000) = none := by
  have same := seekObject_page readable.toSorted r
  rw [imageByte, imageByte, same]
  cases (seekObject (r / 0x1000 * 0x1000) 0 pe.paObjects).2 with
  | nil => exact Iff.rfl
  | cons o rest => simp [byteOfObject]

theorem imageBytes_page {pe : PeModule} (readable : Readable pe) {p : ℕ} (aligned : 0x1000 ∣ p)
    (present : imageByte pe p ≠ none) :
    p + 0x1000 < 0x100000000 ∧ ∃ bs, imageBytes pe p 0x1000 = some bs := by
  cases found : (seekObject p 0 pe.paObjects).2 with
  | nil => exact absurd (by rw [imageByte, found]; rfl) present
  | cons o rest =>
    obtain ⟨arranged, low, high⟩ := seekObject_found 0 readable.toArranged (readable.low p) found
    obtain ⟨limit_aligned, limit⟩ := objectLimit_aligned arranged.toSorted
    refine ⟨by omega, (List.range 0x1000).map fun k => (imageByte pe (p + k)).getD 0,
      imageBytes_eq_some (by simp) fun k hk => ?_⟩
    rw [List.length_map, List.length_range] at hk
    rw [List.getElem_map, List.getElem_range, imageByte,
      seekObject_inside found (Nat.le_add_right p k) (by omega)]
    rfl

/-! ## The buffer -/

/-- The buffer holds nothing, or a page of the image. -/
structure BufferedRVARead.Valid (this : BufferedRVARead) : Prop where
  readable : Readable this.pe
  buffer : this.ulRVA = noRVA ∨ (0x1000 ∣ this.ulRVA ∧ this.ulRVA + 0x1000 < 0x100000000 ∧
    imageBytes this.pe this.ulRVA 0x1000 = some (slice this.achBuffer 0 0x1000))

namespace BufferedRVARead

theorem new_valid {pe : PeModule} (readable : Readable pe) (fresh : Mem) :
    (new pe fresh).Valid := ⟨readable, .inl rfl⟩

theorem assign_valid {this srcObj : BufferedRVARead} (valid : srcObj.Valid) :
    (this.assign srcObj).Valid := by
  obtain ⟨readable, buffer⟩ := valid
  refine ⟨readable, ?_⟩
  by_cases empty : srcObj.ulRVA = noRVA
  · exact .inl empty
  · refine .inr ?_
    show _ ∧ _ ∧ imageBytes srcObj.pe srcObj.ulRVA 0x1000 = some (slice (if srcObj.ulRVA ≠ noRVA then
      srcObj.achBuffer else this.achBuffer) 0 0x1000)
    rw [if_pos empty]
    exact buffer.resolve_left empty

theorem not_has_noRVA (this : BufferedRVARead) (empty : this.ulRVA = noRVA) (r : ℕ) :
    ¬this.has r := by
  rintro ⟨low, high⟩
  have wrapped : add32 noRVA 0x1000 = 0xfff := rfl
  rw [empty, wrapped] at high
  rw [empty, noRVA] at low
  omega

theorem tail_spec {this : BufferedRVARead} (valid : this.Valid) {r : ℕ} (has : this.has r) :
    imageBytes this.pe r (this.tail r).length = some (this.tail r) ∧ 0 < (this.tail r).length ∧
      r + (this.tail r).length = (r / 0x1000 + 1) * 0x1000 ∧
      r + (this.tail r).length < 0x100000000 := by
  rcases valid.buffer with empty | ⟨aligned, fits, bytes⟩
  · exact absurd has (this.not_has_noRVA empty r)
  · obtain ⟨low, high⟩ := has
    rw [add32_of_lt fits] at high
    obtain ⟨k, rfl⟩ := Nat.exists_eq_add_of_le low
    have back := (imageBytes_split (k := k) bytes (by omega)).2
    have same : this.tail (this.ulRVA + k) = (slice this.achBuffer 0 0x1000).drop k := by
      have split : slice this.achBuffer 0 0x1000 =
          slice this.achBuffer 0 k ++ slice this.achBuffer (0 + k) (0x1000 - k) := by
        rw [← slice_add, Nat.add_sub_cancel' (by omega)]
      rw [tail, Nat.add_sub_cancel_left, split, List.drop_left' (length_slice _ _ _), Nat.zero_add]
    have len : (this.tail (this.ulRVA + k)).length = 0x1000 - k := by
      rw [tail, length_slice, Nat.add_sub_cancel_left]
    refine ⟨?_, by omega, by omega, by omega⟩
    rw [len, same]
    exact back

theorem readStart_eq {this : BufferedRVARead} (valid : this.Valid) (r : ℕ) :
    this.readStart r = r / 0x1000 * 0x1000 := by
  unfold readStart
  split
  · rfl
  · rename_i sequential
    obtain ⟨same, filled⟩ := not_or.1 sequential
    obtain ⟨aligned, fits, -⟩ := valid.buffer.resolve_left filled
    have same := Decidable.not_not.1 same
    rw [add32_of_lt fits] at same ⊢
    omega

theorem readToBuffer_none {this : BufferedRVARead} (valid : this.Valid) {r : ℕ}
    (outside : imageByte this.pe r = none) :
    this.readToBuffer r = ({ this with ulRVA := noRVA }, .error .invalidParameter) := by
  have read := readAtRVAFrom_spec valid.readable (n := 0x1000) (r := r / 0x1000 * 0x1000)
    (fun _ _ => rfl) (Nat.le_refl 0x1000)
  rw [imageBytes_none ((imageByte_page valid.readable r).1 outside) (by omega)] at read
  rw [readToBuffer, readStart_eq valid]
  cases filled : readAtRVAFrom this.pe.file 0x1000 this.pe.paObjects (r / 0x1000 * 0x1000)
      0x1000 with
  | ok buffer => rw [filled] at read; cases read
  | error e =>
    rw [filled] at read
    obtain rfl : e = .invalidParameter := Except.error.inj read
    rfl

theorem readToBuffer_some {this : BufferedRVARead} (valid : this.Valid) {r : ℕ}
    (inside : imageByte this.pe r ≠ none) :
    ∃ next, this.readToBuffer r = (next, .ok ()) ∧ next.Valid ∧ next.pe = this.pe ∧
      next.has r := by
  have present := fun h => inside ((imageByte_page valid.readable r).2 h)
  obtain ⟨fits, bs, bytes⟩ := imageBytes_page valid.readable (Nat.dvd_mul_left _ _) present
  have read := readAtRVAFrom_spec valid.readable (n := 0x1000) (r := r / 0x1000 * 0x1000)
    (fun _ _ => rfl) (Nat.le_refl 0x1000)
  rw [bytes] at read
  rw [readToBuffer, readStart_eq valid]
  cases filled : readAtRVAFrom this.pe.file 0x1000 this.pe.paObjects (r / 0x1000 * 0x1000)
      0x1000 with
  | error e => rw [filled] at read; cases read
  | ok buffer =>
    rw [filled] at read
    have content : slice buffer 0 0x1000 = bs := Except.ok.inj read
    refine ⟨_, rfl, ⟨valid.readable, .inr ⟨Nat.dvd_mul_left _ _, fits, ?_⟩⟩, rfl, ?_, ?_⟩
    · rw [content]
      exact bytes
    · show r / 0x1000 * 0x1000 ≤ r
      omega
    · show r < add32 (r / 0x1000 * 0x1000) 0x1000
      rw [add32_of_lt fits]
      omega

/-! ## Reads -/

/-- The rounds that a read needs at most. -/
def readNeeds (this : BufferedRVARead) (r cbBuffer : ℕ) : ℕ :=
  2 * cbBuffer + if this.has r then 0 else 1

/-- What a read of the bytes is to answer, `read` having been delivered. -/
def readAnswer (read : List UInt8) (bytes : Option (List UInt8)) : Except Failure (List UInt8) :=
  match bytes with
  | some bytes => .ok (read ++ bytes)
  | none => .error (.rc .invalidParameter)

theorem readLoop_spec {this : BufferedRVARead} (valid : this.Valid) {rounds r cbBuffer : ℕ}
    (read : List UInt8) (pos : 0 < cbBuffer) (enough : this.readNeeds r cbBuffer ≤ rounds) :
    ∃ next, readLoop rounds this r cbBuffer read =
        some (next, readAnswer read (imageBytes this.pe r cbBuffer)) ∧
      next.Valid ∧ next.pe = this.pe := by
  induction rounds generalizing this r cbBuffer read with
  | zero =>
    unfold readNeeds at enough
    omega
  | succ rounds ih =>
    unfold readNeeds at enough
    rw [readLoop]
    by_cases has : this.has r
    · obtain ⟨bytes, some_bytes, -, fits⟩ := tail_spec valid has
      rw [if_pos has] at enough ⊢
      set c := min (this.tail r).length cbBuffer with hc
      have front := (imageBytes_split (k := c) bytes (Nat.min_le_left _ _)).1
      by_cases all : cbBuffer = c
      · simp only [if_pos all]
        refine ⟨this, ?_, valid, rfl⟩
        rw [all, front]
        rfl
      · simp only [if_neg all]
        have next_rva : add32 r c = r + c := add32_of_lt (by omega)
        have needs : this.readNeeds (r + c) (cbBuffer - c) ≤ rounds := by
          unfold readNeeds
          split <;> omega
        obtain ⟨next, done, valid', same⟩ :=
          ih valid (read ++ (this.tail r).take c) (by omega) needs
        refine ⟨next, ?_, valid', same⟩
        have whole : imageBytes this.pe r cbBuffer = (some ((this.tail r).take c)).bind fun xs =>
            (imageBytes this.pe (r + c) (cbBuffer - c)).map fun ys => xs ++ ys := by
          rw [← front, ← imageBytes_add, Nat.add_sub_cancel' (by omega)]
        rw [next_rva, done, whole]
        cases imageBytes this.pe (r + c) (cbBuffer - c) with
        | none => rfl
        | some ys => simp [readAnswer]
    · rw [if_neg has] at enough ⊢
      by_cases outside : imageByte this.pe r = none
      · rw [readToBuffer_none valid outside, imageBytes_none outside pos]
        exact ⟨_, rfl, ⟨valid.readable, .inl rfl⟩, rfl⟩
      · obtain ⟨mid, filled, valid', same, has'⟩ := readToBuffer_some valid outside
        have needs : mid.readNeeds r cbBuffer ≤ rounds := by
          unfold readNeeds
          rw [if_pos has']
          omega
        obtain ⟨next, done, valid'', same'⟩ := ih valid' read pos needs
        rw [filled]
        simp only [if_neg (show cbBuffer ≠ 0 by omega)]
        exact ⟨next, by rw [done, same], valid'', same'.trans same⟩

theorem readAtRVA_eq {this : BufferedRVARead} (valid : this.Valid) {r cbBuffer : ℕ}
    (pos : 0 < cbBuffer) :
    ∃ next, this.readAtRVA r cbBuffer =
        some (next, readAnswer [] (imageBytes this.pe r cbBuffer)) ∧
      next.Valid ∧ next.pe = this.pe := by
  refine readLoop_spec valid [] pos ?_
  unfold readNeeds
  split <;> omega

end BufferedRVARead

/-! ## Strings -/

/-- The characters of the zero terminated string at an RVA. -/
structure IsText (pe : PeModule) (r : ℕ) (chars : List UInt8) : Prop where
  no_zero : 0 ∉ chars
  bytes : imageBytes pe r (chars.length + 1) = some (chars ++ [0])

theorem not_isText {pe : PeModule} {r : ℕ} (outside : imageByte pe r = none)
    (chars : List UInt8) : ¬IsText pe r chars := fun text => by
  have none := imageBytes_none outside (Nat.succ_pos chars.length)
  rw [text.bytes] at none
  cases none

theorem isText_takeWhile {pe : PeModule} {r : ℕ} {bs : List UInt8}
    (bytes : imageBytes pe r bs.length = some bs) (zero : 0 ∈ bs) :
    IsText pe r (bs.takeWhile (· ≠ 0)) := by
  have prefixed : bs.takeWhile (· ≠ 0) ++ [0] <+: bs := by
    clear bytes
    induction bs with
    | nil => cases zero
    | cons b bs ih =>
      rw [List.takeWhile_cons]
      by_cases hb : b = 0
      · rw [hb]
        simp
      · have zero' : 0 ∈ bs := (List.mem_cons.1 zero).resolve_left fun h => hb h.symm
        simpa [hb, List.prefix_cons_iff] using ih zero'
  have len := prefixed.length_le
  have front := (imageBytes_split bytes len).1
  rw [← List.prefix_iff_eq_take.1 prefixed, List.length_append] at front
  refine ⟨fun mem => ?_, front⟩
  have differs := List.all_eq_true.1 (List.all_takeWhile (p := (· ≠ 0)) (l := bs)) 0 mem
  simp at differs

theorem isText_append {pe : PeModule} {r : ℕ} {front : List UInt8}
    (bytes : imageBytes pe r front.length = some front) (no_zero : 0 ∉ front)
    (chars : List UInt8) :
    IsText pe r chars ↔ ∃ more, chars = front ++ more ∧ IsText pe (r + front.length) more := by
  constructor
  · rintro ⟨chars_no_zero, text⟩
    have le : front.length ≤ chars.length := by
      by_contra short
      have part := (imageBytes_split (k := chars.length + 1) bytes (by omega)).1
      have same : front.take (chars.length + 1) = chars ++ [0] :=
        Option.some.inj (part.symm.trans text)
      have mem : (0 : UInt8) ∈ front.take (chars.length + 1) := by
        rw [same]
        simp
      exact no_zero (List.mem_of_mem_take mem)
    obtain ⟨first, second⟩ := imageBytes_split (k := front.length) text (by omega)
    have same : front = chars.take front.length := by
      rw [bytes, List.take_append_of_le_length le] at first
      exact Option.some.inj first
    refine ⟨chars.drop front.length, ?_, fun mem => chars_no_zero (List.mem_of_mem_drop mem), ?_⟩
    · calc chars = chars.take front.length ++ chars.drop front.length :=
          (List.take_append_drop _ _).symm
        _ = front ++ chars.drop front.length := by rw [← same]
    · rw [List.length_drop, ← List.drop_append_of_le_length le, ← second]
      congr 1
      omega
  · rintro ⟨more, rfl, more_no_zero, text⟩
    refine ⟨fun mem => (List.mem_append.1 mem).elim no_zero more_no_zero, ?_⟩
    rw [List.length_append, Nat.add_assoc, imageBytes_add, bytes, text]
    simp

namespace BufferedRVARead

/-- What `dupString` may answer, `pre` having been stored: the string if there is one and an
error if there is none, and another error only without memory. -/
def DupAnswers (pe : PeModule) (r : ℕ) (pre : List UInt8) (room : ℕ → Bool) :
    Except Failure (List UInt8) → Prop
  | .ok text => ∃ chars, IsText pe r chars ∧ text = pre ++ chars ++ [0]
  | .error (.rc rc) => rc = .invalidParameter ∧ ∀ chars, ¬IsText pe r chars
  | .error .notEnoughMemory => ∃ k, room k = false
  | .error .trap => ∃ k, room k = false

theorem DupAnswers.behind {pe : PeModule} {r : ℕ} {pre front : List UInt8} {room : ℕ → Bool}
    {answer : Except Failure (List UInt8)}
    (bytes : imageBytes pe r front.length = some front) (no_zero : 0 ∉ front)
    (answers : DupAnswers pe (r + front.length) (pre ++ front) room answer) :
    DupAnswers pe r pre room answer := by
  cases answer with
  | ok text =>
    obtain ⟨more, text, rfl⟩ := answers
    refine ⟨front ++ more, (isText_append bytes no_zero _).2 ⟨more, rfl, text⟩, ?_⟩
    rw [List.append_assoc pre front more]
  | error e =>
    cases e with
    | rc rc =>
      obtain ⟨rfl, none⟩ := answers
      refine ⟨rfl, fun chars text => ?_⟩
      obtain ⟨more, -, text⟩ := (isText_append bytes no_zero chars).1 text
      exact none more text
    | notEnoughMemory => exact answers
    | trap => exact answers

/-- What has been stored so far. -/
def soFar (psz : Option HeapString) : List UInt8 := (psz.map HeapString.stored).getD []

/-- The heap block holds what has been stored. -/
def Held (psz : Option HeapString) : Prop :=
  ∀ h ∈ psz, h.stored.length ≤ h.cchAllocated

theorem grow_spec {cchAlloc : ℕ} {psz : Option HeapString} (held : Held psz) (room : Bool) :
    (room = false ∧ ∃ e, (e = .trap ∨ e = .notEnoughMemory) ∧ grow room cchAlloc psz = .error e) ∨
    ∃ next, grow room cchAlloc psz = .ok next ∧ next.stored = soFar psz ∧
      next.stored.length + cchAlloc ≤ next.cchAllocated := by
  cases psz with
  | none =>
    cases room with
    | false => exact .inl ⟨rfl, _, .inl rfl, rfl⟩
    | true => exact .inr ⟨_, rfl, rfl, (Nat.zero_add cchAlloc).le⟩
  | some h =>
    have fits := held h rfl
    cases room with
    | false => exact .inl ⟨rfl, _, .inr rfl, rfl⟩
    | true => exact .inr ⟨_, rfl, rfl, Nat.add_le_add_right fits cchAlloc⟩

theorem store_of_le {psz : HeapString} {chars : List UInt8}
    (fits : psz.stored.length + chars.length ≤ psz.cchAllocated) :
    psz.store chars = .ok { psz with stored := psz.stored ++ chars } := if_pos fits

theorem dupPart_spec {tail : List UInt8} {psz : Option HeapString} (held : Held psz) (room : Bool) :
    (room = false ∧ ∃ e, (e = .trap ∨ e = .notEnoughMemory) ∧ dupPart room tail psz = .error e) ∨
    (0 ∈ tail ∧ ∃ next, dupPart room tail psz = .ok (next, true) ∧
      next.stored = soFar psz ++ tail.takeWhile (· ≠ 0) ++ [0]) ∨
    (0 ∉ tail ∧ ∃ next, dupPart room tail psz = .ok (next, false) ∧
      next.stored = soFar psz ++ tail ∧ Held (some next)) := by
  unfold dupPart
  by_cases zero : (0 : UInt8) ∈ tail
  · simp only [if_pos zero]
    rcases @grow_spec ((tail.takeWhile (· ≠ 0)).length + 1) psz held room with
      ⟨full, e, which, grown⟩ | ⟨next, grown, stored, fits⟩
    · exact .inl ⟨full, e, which, by rw [grown]; rfl⟩
    · refine .inr (.inl ⟨zero,
        { next with stored := next.stored ++ (tail.takeWhile (· ≠ 0) ++ [0]) }, ?_, ?_⟩)
      · rw [grown]
        show (next.store _).map _ = _
        rw [store_of_le (by rw [List.length_append]; exact fits)]
        rfl
      · rw [← stored, List.append_assoc]
  · simp only [if_neg zero]
    rcases @grow_spec (tail.length + 42) psz held room with
      ⟨full, e, which, grown⟩ | ⟨next, grown, stored, fits⟩
    · exact .inl ⟨full, e, which, by rw [grown]; rfl⟩
    · refine .inr (.inr ⟨zero, { next with stored := next.stored ++ tail }, ?_, ?_, ?_⟩)
      · rw [grown]
        show (next.store _).map _ = _
        rw [store_of_le (by omega)]
        rfl
      · rw [← stored]
      · rintro h ⟨⟩
        show (next.stored ++ tail).length ≤ next.cchAllocated
        rw [List.length_append]
        omega

/-- The rounds that a string needs at most. -/
def dupNeeds (this : BufferedRVARead) (r : ℕ) : ℕ :=
  2 * (0x100000 - r / 0x1000) + if this.has r then 0 else 1

theorem dupLoop_spec {room : ℕ → Bool} {this : BufferedRVARead} (valid : this.Valid)
    {rounds r : ℕ} {psz : Option HeapString} (held : Held psz) (word : r < 0x100000000)
    (enough : this.dupNeeds r ≤ rounds) :
    ∃ next answer, dupLoop room rounds this r psz = some (next, answer) ∧
      DupAnswers this.pe r (soFar psz) room answer ∧ next.Valid ∧ next.pe = this.pe := by
  induction rounds generalizing this r psz with
  | zero =>
    unfold dupNeeds at enough
    omega
  | succ rounds ih =>
    unfold dupNeeds at enough
    rw [dupLoop]
    by_cases has : this.has r
    · obtain ⟨bytes, some_bytes, pageEnd, fits⟩ := tail_spec valid has
      rw [if_pos has] at enough ⊢
      rcases @dupPart_spec (this.tail r) psz held (room rounds) with
        ⟨full, e, which, part⟩ | ⟨zero, done, part, stored⟩ | ⟨no_zero, done, part, stored, held'⟩
      · rw [part]
        refine ⟨this, .error e, rfl, ?_, valid, rfl⟩
        rcases which with rfl | rfl <;> exact ⟨rounds, full⟩
      · rw [part]
        exact ⟨this, .ok done.stored, rfl, ⟨_, isText_takeWhile bytes zero, stored⟩, valid, rfl⟩
      · rw [part]
        -- the next round begins behind the page
        have next_rva : alignPage (add32 r 1) = r + (this.tail r).length := by
          rw [add32_of_lt (by omega)]
          unfold alignPage add32 u32
          omega
        have needs : this.dupNeeds (r + (this.tail r).length) ≤ rounds := by
          unfold dupNeeds
          split <;> omega
        obtain ⟨next, answer, ran, answers, valid', same⟩ := ih valid held' fits needs
        rw [show soFar (some done) = done.stored from rfl, stored] at answers
        refine ⟨next, answer, ?_, answers.behind bytes no_zero, valid', same⟩
        rw [← next_rva] at ran
        exact ran
    · rw [if_neg has] at enough ⊢
      by_cases outside : imageByte this.pe r = none
      · rw [readToBuffer_none valid outside]
        exact ⟨_, _, rfl, ⟨rfl, not_isText outside⟩, ⟨valid.readable, .inl rfl⟩, rfl⟩
      · obtain ⟨mid, filled, valid', same, has'⟩ := readToBuffer_some valid outside
        have needs : mid.dupNeeds r ≤ rounds := by
          unfold dupNeeds
          rw [if_pos has']
          omega
        obtain ⟨next, answer, ran, answers, valid'', same'⟩ := ih valid' held word needs
        rw [filled]
        rw [same] at answers
        exact ⟨next, answer, ran, answers, valid'', same'.trans same⟩

theorem dupString_spec {room : ℕ → Bool} {this : BufferedRVARead} (valid : this.Valid) {r : ℕ}
    (word : r < 0x100000000) :
    ∃ next answer, this.dupString room r = some (next, answer) ∧
      DupAnswers this.pe r [] room answer ∧ next.Valid ∧ next.pe = this.pe := by
  refine @dupLoop_spec room this valid _ r none (fun h mem => by cases mem) word ?_
  unfold dupNeeds
  split <;> omega

theorem readAnswer_eq {pe : PeModule} (readable : Readable pe) (r n : ℕ) :
    readAnswer [] (imageBytes pe r n) =
      ((LxFixups.readAtRVA pe r n).map fun buffer => slice buffer 0 n).mapError Failure.rc := by
  rw [readAtRVA_spec readable]
  cases imageBytes pe r n <;> rfl

end BufferedRVARead

/-! ## Runs -/

/-- The readers, by number. -/
abbrev Readers := ℕ → BufferedRVARead

inductive Op where
  | read (i ulRVA cbBuffer : ℕ)
  | dup (i ulRVA : ℕ) (room : ℕ → Bool)
  | assign (i srcObj : ℕ)

def Op.Ok : Op → Prop
  | .read _ _ cbBuffer => 0 < cbBuffer
  | .dup _ ulRVA _ => ulRVA < 0x100000000
  | .assign _ _ => True

def Readers.set (readers : Readers) (i : ℕ) (this : BufferedRVARead) : Readers :=
  Function.update readers i this

/-- One call on the readers, with its answer. -/
def exec (readers : Readers) : Op → Option (Readers × Except Failure (List UInt8))
  | .read i ulRVA cbBuffer =>
    ((readers i).readAtRVA ulRVA cbBuffer).map fun done => (readers.set i done.1, done.2)
  | .dup i ulRVA room =>
    ((readers i).dupString room ulRVA).map fun done => (readers.set i done.1, done.2)
  | .assign i srcObj => some (readers.set i ((readers i).assign (readers srcObj)), .ok [])

/-- The answer of a call is that of the plain reader, or the string at the RVA. -/
def Agrees (readers : Readers) : Op → Except Failure (List UInt8) → Prop
  | .read i ulRVA cbBuffer, answer =>
    answer = ((LxFixups.readAtRVA (readers i).pe ulRVA cbBuffer).map fun buffer =>
      slice buffer 0 cbBuffer).mapError Failure.rc
  | .dup i ulRVA room, answer => BufferedRVARead.DupAnswers (readers i).pe ulRVA [] room answer
  | .assign _ _, _ => True

def RunAgrees : Readers → List Op → Prop
  | _, [] => True
  | readers, op :: ops =>
    ∃ next answer, exec readers op = some (next, answer) ∧ Agrees readers op answer ∧
      RunAgrees next ops

def Readers.Valid (readers : Readers) : Prop := ∀ i, (readers i).Valid

theorem Readers.Valid.set {readers : Readers} (valid : readers.Valid) (i : ℕ)
    {this : BufferedRVARead} (this_valid : this.Valid) : (readers.set i this).Valid := fun j => by
  rw [Readers.set, Function.update_apply]
  split
  · exact this_valid
  · exact valid j

theorem exec_agrees {readers : Readers} (valid : readers.Valid) {op : Op} (ok : op.Ok) :
    ∃ next answer, exec readers op = some (next, answer) ∧ Agrees readers op answer ∧
      next.Valid := by
  cases op with
  | read i ulRVA cbBuffer =>
    obtain ⟨this, done, this_valid, -⟩ := BufferedRVARead.readAtRVA_eq (r := ulRVA) (valid i) ok
    refine ⟨_, _, by rw [exec, done]; rfl, ?_, valid.set i this_valid⟩
    exact BufferedRVARead.readAnswer_eq (valid i).readable ulRVA cbBuffer
  | dup i ulRVA room =>
    obtain ⟨this, answer, done, answers, this_valid, -⟩ :=
      @BufferedRVARead.dupString_spec room (readers i) (valid i) ulRVA ok
    exact ⟨_, answer, by rw [exec, done]; rfl, answers, valid.set i this_valid⟩
  | assign i srcObj =>
    exact ⟨_, _, rfl, trivial, valid.set i (BufferedRVARead.assign_valid (valid srcObj))⟩

theorem run_agrees {readers : Readers} (valid : readers.Valid) {ops : List Op}
    (ok : ∀ op ∈ ops, op.Ok) : RunAgrees readers ops := by
  induction ops generalizing readers with
  | nil => trivial
  | cons op ops ih =>
    obtain ⟨next, answer, ran, agrees, valid'⟩ := exec_agrees valid (ok op List.mem_cons_self)
    exact ⟨next, answer, ran, agrees, ih valid' fun op' mem => ok op' (List.mem_cons_of_mem op mem)⟩

/-! ## The readers of a module -/

/-- The plain reader delivers the bytes of a file that has them all, so that no `ReadAt`
fails. -/
theorem readers_agree {pe : ℕ → PeModule} (readable : ∀ i, Readable (pe i)) (fresh : ℕ → Mem)
    {ops : List Op} (ok : ∀ op ∈ ops, op.Ok) : RunAgrees (fun i => .new (pe i) (fresh i)) ops :=
  run_agrees (fun i => BufferedRVARead.new_valid (readable i) (fresh i)) ok

/-- A header of 0x200 bytes, and a section of three pages with 0x2400 bytes. -/
def sampleModule : PeModule where
  paObjects := [{ ulRVA := 0, cbPhysical := 0x200, cbVirtual := 0x1000 },
    { ulRVA := 0x1000, cbPhysical := 0x2400, cbVirtual := 0x3000, offPEFile := 0x200 }]
  fAllInOneObject := false
  ulImageBase := 0x400000
  pBaseRelocs := none
  oteBase := fun _ => 0
  file := fun i => UInt8.ofNat (i % 251)

/-- Reads over the end of a page, by two readers of which one takes the buffer of the other. -/
theorem sampleModule_agree :
    RunAgrees (fun _ => .new sampleModule fun _ => 0)
      [.read 0 0xff0 0x20, .assign 1 0, .dup 1 0x1ff0 fun _ => true, .read 1 0x3ffe 4] :=
  @readers_agree (fun _ => sampleModule) (fun _ => {
      words := by decide
      aligned := by decide
      apart := by decide
      last := by decide
      inFile := by decide
      header := by decide })
    (fun _ _ => 0) _ (by simp [Op.Ok])

def oneObject (cbPhysical cbVirtual : ℕ) : PeModule where
  paObjects := [{ ulRVA := 0, cbPhysical := cbPhysical, cbVirtual := cbVirtual }]
  fAllInOneObject := false
  ulImageBase := 0x400000
  pBaseRelocs := none
  oteBase := fun _ => 0
  file := fun _ => 1

theorem oneObject_sorted (cbPhysical : ℕ) : Sorted (oneObject cbPhysical 0x1000).paObjects where
  words o mem := by
    rw [List.mem_singleton.1 mem]
    exact ⟨show 0 < 0x100000000 by decide, show 0x1000 < 0x100000000 by decide⟩
  aligned o mem := by
    rw [List.mem_singleton.1 mem]
    exact Nat.dvd_zero 0x1000
  apart := List.pairwise_singleton _ _

/-- Reading no bytes behind the image succeeds with the plain reader only, and so does reading
file data behind the pages of the last object. -/
theorem not_readers_agree_sorted :
    (∃ pe : PeModule, Sorted pe.paObjects ∧
      ¬RunAgrees (fun _ => .new pe fun _ => 0) [.read 0 0x1000 0]) ∧
    (∃ pe : PeModule, Sorted pe.paObjects ∧
      ¬RunAgrees (fun _ => .new pe fun _ => 0) [.read 0 0xffe 4]) := by
  constructor
  · refine ⟨oneObject 0x200 0x1000, oneObject_sorted 0x200, ?_⟩
    rintro ⟨next, answer, ran, agrees, -⟩
    obtain rfl : answer = .error (.rc .invalidParameter) :=
      (congrArg (fun done => done.2) (Option.some.inj ran)).symm
    cases agrees
  · refine ⟨oneObject 0x2000 0x1000, oneObject_sorted 0x2000, ?_⟩
    rintro ⟨next, answer, ran, agrees, -⟩
    obtain rfl : answer = .error (.rc .invalidParameter) :=
      (congrArg (fun done => done.2) (Option.some.inj ran)).symm
    cases agrees

end Odin32.LxReader
