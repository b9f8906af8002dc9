import Odin32.HandleNames
import Mathlib.Logic.Relation

/-! # Resolving device names

`findSymbolicLink` and `resolveName` of `handlenames.cpp`. The stores into the caller's
buffer are kept one by one, with their offsets from its start. -/

set_option autoImplicit false

namespace Odin32.HandleNames

open LinearList

abbrev Bytes := List UInt8

def backslash : UInt8 := 92

/-- The byte of a string at `i`; the NUL is behind the last one. -/
def byteAt (psz : Bytes) (i : ℕ) : UInt8 := psz.getD i 0

def toLower (b : UInt8) : UInt8 := if 65 ≤ b ∧ b ≤ 90 then b + 32 else b

/-- `!strnicmp(a, b, n)`. -/
def strnicmpEq (a b : Bytes) (n : ℕ) : Bool := (a.take n).map toLower == (b.take n).map toLower

/-- `!memcmp(a, b, n)` within both strings. -/
def memcmpEq (a b : Bytes) (n : ℕ) : Bool := a.take n == b.take n

def prefixEq (fCaseInsensitive : Bool) (a b : Bytes) (n : ℕ) : Bool :=
  if fCaseInsensitive then strnicmpEq a b n else memcmpEq a b n

/-- The test of `findSymbolicLink`. -/
def HandleName.taken (name : HandleName) (psz : Bytes) (fCaseInsensitive : Bool) : Bool :=
  let cch := name.ulSymbolicLinkLength
  decide (cch ≤ psz.length) && (byteAt psz cch == backslash || byteAt psz cch == 0) &&
    prefixEq fCaseInsensitive name.pszSymbolicLink.bytes psz cch

/-- The stores of `strncpy(dst, src, n)`: `n` of them, with NULs behind the string. -/
def strncpy (dst : ℕ) (src : Bytes) (n : ℕ) : List (ℕ × UInt8) :=
  (List.range n).map fun i => (dst + i, byteAt src i)

/-- The two copies of `resolveName`; the length of the second one is unsigned. -/
def HandleName.stores (name : HandleName) (pszName : Bytes) (ulTargetLength : UInt32) :
    List (ℕ × UInt8) :=
  let first := strncpy 0 name.pszTarget.bytes ulTargetLength.toNat
  let length := UInt32.ofNat name.ulTargetLength
  if ulTargetLength ≠ length then
    first ++ strncpy name.ulTargetLength (pszName.drop name.ulSymbolicLinkLength)
      (ulTargetLength - length).toNat
  else first

namespace State

def findSymbolicLink (s : State) (pszSymbolicLink : CString) (fCaseInsensitive : Bool) :
    Option (Option Ptr) :=
  s.find fun name => name.taken pszSymbolicLink.bytes fCaseInsensitive

def resolveName (s : State) (pszName : CString) (ulTargetLength : UInt32)
    (fCaseInsensitive : Bool) : Option (Bool × List (ℕ × UInt8)) := do
  match ← s.findSymbolicLink pszName fCaseInsensitive with
  | none => return (false, [])
  | some p =>
    let name ← s.names p
    return (true, name.stores pszName.bytes ulTargetLength)

end State

/-! ## What resolving is for -/

/-- The link is a prefix of the name and ends where a component of the name ends, at the end
of the name or behind a backslash of its own. -/
def HandleName.applies (name : HandleName) (psz : Bytes) (fCaseInsensitive : Bool) : Bool :=
  let cch := name.ulSymbolicLinkLength
  decide (cch ≤ psz.length) && prefixEq fCaseInsensitive name.pszSymbolicLink.bytes psz cch &&
    (byteAt psz cch == backslash || byteAt psz cch == 0 ||
      name.pszSymbolicLink.bytes.getLast? == some backslash)

/-- The name with the link replaced. -/
def HandleName.replaced (name : HandleName) (psz : Bytes) : Bytes :=
  name.pszTarget.bytes ++ psz.drop name.ulSymbolicLinkLength

section Resolution

variable (table : List HandleName) (fCaseInsensitive : Bool)

def firstLink (psz : Bytes) : Option HandleName :=
  table.find? fun name => name.applies psz fCaseInsensitive

def ResolveStep (psz psz' : Bytes) : Prop :=
  ∃ name, firstLink table fCaseInsensitive psz = some name ∧ psz' = name.replaced psz

/-- No link applies to the name. -/
def Final (psz : Bytes) : Prop := ∀ name ∈ table, name.applies psz fCaseInsensitive = false

/-- Links are replaced as long as one applies. -/
def Resolves (psz result : Bytes) : Prop :=
  Relation.TransGen (ResolveStep table fCaseInsensitive) psz result ∧
    Final table fCaseInsensitive result

end Resolution

/-- The buffer after some stores. -/
def poke (stores : List (ℕ × UInt8)) (buffer : ℕ → UInt8) : ℕ → UInt8 :=
  stores.foldl (fun buffer store => Function.update buffer store.1 store.2) buffer

/-- The stores stay in the buffer and leave the string there, whatever it held. -/
structure Stored (stores : List (ℕ × UInt8)) (size : ℕ) (result : Bytes) : Prop where
  inside : ∀ store ∈ stores, store.1 < size
  noNul : ∀ b ∈ result, b ≠ 0
  fits : result.length < size
  there : ∀ buffer i, i ≤ result.length → poke stores buffer i = byteAt result i

/-- `FALSE` exactly when no link applies; with `TRUE` the final name is in the buffer. -/
def ResolvedRight (s : State) (table : List HandleName) (pszName : CString)
    (ulTargetLength : UInt32) (fCaseInsensitive : Bool) : Prop :=
  ∃ rc stores, s.resolveName pszName ulTargetLength fCaseInsensitive = some (rc, stores) ∧
    (rc = false ↔ Final table fCaseInsensitive pszName.bytes) ∧
    (rc = true → ∃ result, Resolves table fCaseInsensitive pszName.bytes result ∧
      Stored stores ulTargetLength.toNat result)

/-! ## The stores -/

theorem poke_append (first rest : List (ℕ × UInt8)) (buffer : ℕ → UInt8) :
    poke (first ++ rest) buffer = poke rest (poke first buffer) := by
  rw [poke, List.foldl_append]
  rfl

theorem poke_strncpy (dst : ℕ) (src : Bytes) (n : ℕ) (buffer : ℕ → UInt8) (i : ℕ) :
    poke (strncpy dst src n) buffer i =
      if dst ≤ i ∧ i < dst + n then byteAt src (i - dst) else buffer i := by
  induction n with
  | zero =>
    rw [if_neg (by omega)]
    rfl
  | succ n ih =>
    have last : strncpy dst src (n + 1) = strncpy dst src n ++ [(dst + n, byteAt src n)] := by
      rw [strncpy, List.range_succ, List.map_append]
      rfl
    rw [last, poke_append]
    by_cases here : i = dst + n
    · subst here
      rw [if_pos (by omega), Nat.add_sub_cancel_left]
      exact Function.update_self ..
    · have before : poke [(dst + n, byteAt src n)] (poke (strncpy dst src n) buffer) i =
          poke (strncpy dst src n) buffer i := Function.update_of_ne here ..
      rw [before, ih]
      by_cases inside : dst ≤ i ∧ i < dst + n
      · rw [if_pos inside, if_pos (by omega)]
      · rw [if_neg inside, if_neg (by omega)]

theorem mem_strncpy {dst : ℕ} {src : Bytes} {n i : ℕ} (lt : i < n) :
    (dst + i, byteAt src i) ∈ strncpy dst src n :=
  List.mem_map.mpr ⟨i, List.mem_range.mpr lt, rfl⟩

theorem strncpy_bounds {dst : ℕ} {src : Bytes} {n : ℕ} {store : ℕ × UInt8}
    (mem : store ∈ strncpy dst src n) : dst ≤ store.1 ∧ store.1 < dst + n := by
  obtain ⟨i, at_i, rfl⟩ := List.mem_map.mp mem
  have lt := List.mem_range.mp at_i
  exact ⟨Nat.le_add_right .., Nat.add_lt_add_left lt dst⟩

variable {table : List HandleName} {name : HandleName}

theorem byteAt_of_lt {psz : Bytes} {i : ℕ} (lt : i < psz.length) :
    byteAt psz i = psz[i] := by
  rw [byteAt, List.getD_eq_getElem?_getD, List.getElem?_eq_getElem lt, Option.getD_some]

theorem byteAt_of_le {psz : Bytes} {i : ℕ} (le : psz.length ≤ i) : byteAt psz i = 0 := by
  rw [byteAt, List.getD_eq_getElem?_getD, List.getElem?_eq_none le, Option.getD_none]

theorem byteAt_ne_zero {psz : Bytes} (noNul : ∀ b ∈ psz, b ≠ 0) {i : ℕ} (lt : i < psz.length) :
    byteAt psz i ≠ 0 := by
  rw [byteAt_of_lt lt]
  exact noNul _ (List.getElem_mem lt)

theorem byteAt_append (l₁ l₂ : Bytes) (i : ℕ) :
    byteAt (l₁ ++ l₂) i = if i < l₁.length then byteAt l₁ i else byteAt l₂ (i - l₁.length) := by
  simp only [byteAt, List.getD_eq_getElem?_getD]
  by_cases lt : i < l₁.length
  · rw [if_pos lt, List.getElem?_append_left lt]
  · rw [if_neg lt, List.getElem?_append_right (Nat.le_of_not_lt lt)]

theorem replaced_noNul (name : HandleName) {psz : Bytes} (noNul : ∀ b ∈ psz, b ≠ 0) :
    ∀ b ∈ name.replaced psz, b ≠ 0 := by
  intro b mem
  rcases List.mem_append.mp mem with left | right
  · exact name.pszTarget.noNul b left
  · exact noNul b (List.mem_of_mem_drop right)

theorem ofNat_target (name : HandleName) :
    (UInt32.ofNat name.ulTargetLength).toNat = name.pszTarget.bytes.length := by
  have short := name.pszTarget.short
  rw [UInt32.toNat_ofNat', name.target_length]
  exact Nat.mod_eq_of_lt (Nat.lt_of_lt_of_le short (by decide))

theorem stores_of_lt (psz : Bytes) {size : UInt32}
    (lt : name.pszTarget.bytes.length < size.toNat) :
    (∀ store ∈ name.stores psz size, store.1 < size.toNat) ∧
      ∀ buffer i, i < size.toNat →
        poke (name.stores psz size) buffer i = byteAt (name.replaced psz) i := by
  have target := ofNat_target name
  have ne : size ≠ UInt32.ofNat name.ulTargetLength := by
    rintro rfl
    omega
  have count : (size - UInt32.ofNat name.ulTargetLength).toNat =
      size.toNat - name.pszTarget.bytes.length := by
    rw [UInt32.toNat_sub_of_le _ _ (UInt32.le_iff_toNat_le.mpr (by omega)), target]
  have length : name.ulTargetLength = name.pszTarget.bytes.length := name.target_length
  have stores : name.stores psz size = strncpy 0 name.pszTarget.bytes size.toNat ++
      strncpy name.pszTarget.bytes.length (psz.drop name.ulSymbolicLinkLength)
        (size.toNat - name.pszTarget.bytes.length) := by
    rw [HandleName.stores, if_pos ne, count, length]
  rw [stores]
  constructor
  · intro store mem
    rcases List.mem_append.mp mem with first | second
    · have := strncpy_bounds first
      omega
    · have := strncpy_bounds second
      omega
  · intro buffer i here
    rw [poke_append, poke_strncpy, poke_strncpy, HandleName.replaced, byteAt_append]
    by_cases inTarget : i < name.pszTarget.bytes.length
    · rw [if_neg (by omega), if_pos (by omega), if_pos inTarget, Nat.sub_zero]
    · rw [if_pos (by omega), if_neg inTarget]

theorem stored_iff {psz result : Bytes} {size : UInt32} (noNul : ∀ b ∈ psz, b ≠ 0) :
    Stored (name.stores psz size) size.toNat result ↔
      result = name.replaced psz ∧ (name.replaced psz).length < size.toNat := by
  have target := ofNat_target name
  constructor
  · intro stored
    rcases Nat.lt_trichotomy size.toNat name.pszTarget.bytes.length with small | equal | large
    · have ne : size ≠ UInt32.ofNat name.ulTargetLength := by
        rintro rfl
        omega
      have length : name.ulTargetLength = name.pszTarget.bytes.length := name.target_length
      have positive : 0 < (size - UInt32.ofNat name.ulTargetLength).toNat := by
        rw [UInt32.toNat_sub, target]
        have short := name.pszTarget.short
        omega
      have outside := stored.inside (name.ulTargetLength + 0, _) (by
        rw [HandleName.stores, if_pos ne]
        exact List.mem_append_right _ (mem_strncpy positive))
      simp only [Nat.add_zero] at outside
      omega
    · have same : size = UInt32.ofNat name.ulTargetLength :=
        UInt32.toNat_inj.mp (by omega)
      have stores : name.stores psz size = strncpy 0 name.pszTarget.bytes size.toNat := by
        rw [HandleName.stores, if_neg (not_not.mpr same)]
      have ended := stored.there (fun _ => 0) result.length (Nat.le_refl _)
      have fits := stored.fits
      rw [stores, poke_strncpy, if_pos (by omega), Nat.sub_zero, byteAt_of_le (Nat.le_refl _)]
        at ended
      exact absurd ended (byteAt_ne_zero name.pszTarget.noNul (by omega))
    · obtain ⟨-, there⟩ := stores_of_lt psz large
      have fits := stored.fits
      have same : ∀ i, i ≤ result.length → byteAt (name.replaced psz) i = byteAt result i := by
        intro i le
        rw [← there (fun _ => 0) i (by omega), stored.there _ i le]
      have ended := same result.length (Nat.le_refl _)
      rw [byteAt_of_le (Nat.le_refl result.length)] at ended
      have le : (name.replaced psz).length ≤ result.length := by
        by_contra more
        exact byteAt_ne_zero (replaced_noNul name noNul) (Nat.lt_of_not_le more) ended
      have ge : result.length ≤ (name.replaced psz).length := by
        by_contra more
        have at_end := same (name.replaced psz).length (by omega)
        rw [byteAt_of_le (Nat.le_refl _)] at at_end
        exact byteAt_ne_zero stored.noNul (Nat.lt_of_not_le more) at_end.symm
      have eq : result = name.replaced psz := by
        refine List.ext_getElem (by omega) fun i at_i at_i' => ?_
        have here := same i (by omega)
        rw [byteAt_of_lt at_i, byteAt_of_lt at_i'] at here
        exact here.symm
      exact ⟨eq, by omega⟩
  · rintro ⟨rfl, fits⟩
    have large : name.pszTarget.bytes.length < size.toNat := by
      rw [HandleName.replaced, List.length_append] at fits
      omega
    obtain ⟨inside, there⟩ := stores_of_lt psz large
    exact ⟨inside, replaced_noNul name noNul, fits, fun buffer i le => there buffer i (by omega)⟩

/-! ## The law -/

theorem find_table {s : State} (is : Table s table) (stop : HandleName → Bool) :
    (s.find stop = some none ∧ table.find? stop = none) ∨
      ∃ p name, s.find stop = some (some p) ∧ s.names p = some name ∧
        table.find? stop = some name := by
  obtain ⟨l, of⟩ := is
  obtain ⟨found, searched, what⟩ := find_spec of stop
  rcases what with ⟨rfl, absent⟩ |
    ⟨l₁, x, l₂, t₁, name, t₂, rfl, rfl, -, -, here, before, stopped, rfl⟩
  · exact Or.inl ⟨searched, List.find?_eq_none.mpr fun name mem => by simp [absent name mem]⟩
  · refine Or.inr ⟨x.2, name, searched, here, ?_⟩
    rw [List.find?_append, List.find?_eq_none.mpr fun n mem => by simp [before n mem],
      List.find?_cons_of_pos stopped]
    rfl

theorem resolveName_spec {s : State} (is : Table s table) (pszName : CString) (size : UInt32)
    (fCaseInsensitive : Bool) :
    (s.resolveName pszName size fCaseInsensitive = some (false, []) ∧
      table.find? (fun name => name.taken pszName.bytes fCaseInsensitive) = none) ∨
    ∃ name, s.resolveName pszName size fCaseInsensitive =
        some (true, name.stores pszName.bytes size) ∧
      table.find? (fun name => name.taken pszName.bytes fCaseInsensitive) = some name := by
  rcases find_table is fun name => name.taken pszName.bytes fCaseInsensitive with
    ⟨searched, absent⟩ | ⟨p, name, searched, here, found⟩
  · refine Or.inl ⟨?_, absent⟩
    simp only [State.resolveName, State.findSymbolicLink, searched, Option.bind_eq_bind,
      Option.bind_some]
    rfl
  · refine Or.inr ⟨name, ?_, found⟩
    simp only [State.resolveName, State.findSymbolicLink, searched, here, Option.bind_eq_bind,
      Option.bind_some]
    rfl

theorem applies_of_taken {psz : Bytes} {fCaseInsensitive : Bool}
    (taken : name.taken psz fCaseInsensitive = true) :
    name.applies psz fCaseInsensitive = true := by
  simp only [HandleName.taken, HandleName.applies, Bool.and_eq_true, Bool.or_eq_true] at taken ⊢
  exact ⟨⟨taken.1.1, taken.2⟩, Or.inl taken.1.2⟩

/-- No link applies; or the first link that ends in front of a backslash or at the end of the
name gives a name that no link applies to and that fits with its NUL, and no earlier link with
a backslash of its own leads elsewhere. -/
def Resolvable (table : List HandleName) (fCaseInsensitive : Bool) (psz : Bytes) (size : ℕ) :
    Prop :=
  Final table fCaseInsensitive psz ∨
    ∃ name, table.find? (fun name => name.taken psz fCaseInsensitive) = some name ∧
      Final table fCaseInsensitive (name.replaced psz) ∧ (name.replaced psz).length < size ∧
      (firstLink table fCaseInsensitive psz = some name ∨
        Resolves table fCaseInsensitive psz (name.replaced psz))

/-- A name is resolved as it should be exactly when one replacement is enough. -/
theorem resolveName_law {s : State} (is : Table s table) (pszName : CString)
    (ulTargetLength : UInt32) (fCaseInsensitive : Bool) :
    ResolvedRight s table pszName ulTargetLength fCaseInsensitive ↔
      Resolvable table fCaseInsensitive pszName.bytes ulTargetLength.toNat := by
  rcases resolveName_spec is pszName ulTargetLength fCaseInsensitive with
    ⟨resolved, absent⟩ | ⟨name, resolved, found⟩
  · constructor
    · rintro ⟨rc, stores, resolved', final, -⟩
      obtain ⟨rfl, -⟩ := Prod.mk.inj (Option.some.inj (resolved.symm.trans resolved'))
      exact Or.inl (final.mp rfl)
    · rintro (final | ⟨name, found, -⟩)
      · exact ⟨false, [], resolved, ⟨fun _ => final, fun _ => rfl⟩, Bool.noConfusion⟩
      · cases absent.symm.trans found
  · have taken := List.find?_some found
    have applies : name.applies pszName.bytes fCaseInsensitive = true := applies_of_taken taken
    have notFinal : ¬ Final table fCaseInsensitive pszName.bytes := by
      intro final
      have not := final name (List.mem_of_find?_eq_some found)
      rw [applies] at not
      cases not
    constructor
    · rintro ⟨rc, stores, resolved', -, right⟩
      obtain ⟨rfl, rfl⟩ := Prod.mk.inj (Option.some.inj (resolved.symm.trans resolved'))
      obtain ⟨result, resolves, stored⟩ := right rfl
      obtain ⟨rfl, fits⟩ := (stored_iff pszName.noNul).mp stored
      exact Or.inr ⟨name, found, resolves.2, fits, Or.inr resolves⟩
    · rintro (final | ⟨name', found', final, fits, leads⟩)
      · exact absurd final notFinal
      · obtain rfl : name = name' := Option.some.inj (found.symm.trans found')
        refine ⟨true, _, resolved, ⟨Bool.noConfusion, fun final => absurd final notFinal⟩, ?_⟩
        intro _
        refine ⟨name.replaced pszName.bytes, ?_, (stored_iff pszName.noNul).mpr ⟨rfl, fits⟩⟩
        rcases leads with first | resolves
        · exact ⟨Relation.TransGen.single ⟨name, first, rfl⟩, final⟩
        · exact resolves

/-! ## The links of `HMInitialize` -/

theorem ne_zero_of_notMem {bytes : Bytes} (noNul : 0 ∉ bytes) : ∀ b ∈ bytes, b ≠ 0 := by
  rintro b among rfl
  exact noNul among

theorem length_nil_short : ([] : Bytes).length < 0x80000000 := of_decide_eq_true rfl

/-- `strdup` of a literal. -/
def CString.ofBytes (bytes : Bytes) : CString :=
  if h : 0 ∉ bytes ∧ bytes.length < 0x80000000 then ⟨bytes, ne_zero_of_notMem h.1, h.2⟩
  else ⟨[], List.forall_mem_nil _, length_nil_short⟩

/-- `\\.\x:` with the letter in place of the `x`. -/
def drive (ch : UInt8) : CString × CString :=
  (.ofBytes [92, 92, 46, 92, ch, 58], .ofBytes [ch, 58])

/-- `\\?\UNC\` for `\\`. -/
def unc : CString × CString := (.ofBytes [92, 92, 63, 92, 85, 78, 67, 92], .ofBytes [92, 92])

/-- `\\.\Global` for `\\.`. -/
def global : CString × CString :=
  (.ofBytes [92, 92, 46, 92, 71, 108, 111, 98, 97, 108], .ofBytes [92, 92, 46])

/-- Each drive letter twice: the second string of the loop is given the same capital. -/
def hmInitialize : List (CString × CString) :=
  ((List.range 26).flatMap fun i => [drive (UInt8.ofNat (65 + i)), drive (UInt8.ofNat (65 + i))]) ++
    [unc, global]

/-- Links added with memory at addresses that go up. -/
def addAll : ℕ → List (CString × CString) → List Call
  | _, [] => []
  | k, x :: links => .addSymbolicLink x.1 x.2 ⟨some k, some k⟩ :: addAll (k + 1) links

theorem addFirst_free {links links' : CLinearList Ptr} {p : Ptr} {k j : ℕ}
    (added : links.addFirst p (some k) = some links') (ne : j ≠ k) (free : links.heap j = none) :
    links'.heap j = none := by
  rw [CLinearList.addFirst] at added
  split at added
  · simp only [CLinearList.addBefore, Option.bind_eq_bind, Option.bind_eq_some_iff, setPrev,
      Option.map_eq_some_iff] at added
    obtain ⟨e, here, heap, ⟨e', -, rfl⟩, done⟩ := added
    rw [← Option.some.inj done]
    have apart : j ≠ _ := fun eq => absurd ((eq ▸ free).symm.trans here) (by simp)
    simp only [Function.update_of_ne apart, Function.update_of_ne ne, free]
  · obtain rfl := Option.some.inj added
    simp only [Function.update_of_ne ne, free]

theorem addAll_fresh {s : State} {k : ℕ} (links : List (CString × CString))
    (free : ∀ j, k ≤ j → s.names j = none ∧ s.pSymbolicLinks.heap j = none) :
    RunFresh s (addAll k links) := by
  induction links generalizing s k with
  | nil => trivial
  | cons x links ih =>
    refine ⟨⟨?_, ?_⟩, fun s' stepped => ih fun j le => ?_⟩
    · rintro p ⟨⟩
      exact (free k (Nat.le_refl k)).1
    · rintro a ⟨⟩
      exact (free k (Nat.le_refl k)).2
    · obtain ⟨⟨s'', rc⟩, added, rfl⟩ := Option.map_eq_some_iff.mp stepped
      have ne : j ≠ k := Nat.ne_of_gt le
      have kept := free j (Nat.le_of_succ_le le)
      simp only [State.addSymbolicLink, Option.bind_eq_bind, Option.bind_eq_some_iff] at added
      obtain ⟨found, -, added⟩ := added
      cases found with
      | some p =>
        obtain ⟨name, -, done⟩ := Option.bind_eq_some_iff.mp added
        obtain ⟨rfl, -⟩ := Prod.mk.inj (Option.some.inj done)
        exact kept
      | none =>
        obtain ⟨links, first, done⟩ := Option.bind_eq_some_iff.mp added
        obtain ⟨rfl, -⟩ := Prod.mk.inj (Option.some.inj done)
        have named : Function.update s.names k (some (HandleName.of x.1 x.2)) j = none := by
          rw [Function.update_of_ne ne, kept.1]
        exact ⟨named, addFirst_free first ne kept.2⟩

theorem hmInitialize_table :
    ∃ s, run (addAll 1 hmInitialize) new = some s ∧
      Table s (tableAfter [] (addAll 1 hmInitialize)) :=
  run_table table_new (addAll_fresh hmInitialize fun _ _ => ⟨rfl, rfl⟩)

theorem tableAfter_hmInitialize : tableAfter [] (addAll 1 hmInitialize) =
    [HandleName.of global.1 global.2, HandleName.of unc.1 unc.2] ++
      (List.range 26).reverse.map fun i =>
        HandleName.of (drive (UInt8.ofNat (65 + i))).1 (drive (UInt8.ofNat (65 + i))).2 := by
  decide +kernel

/-- `\\?\UNC\srv`. -/
def uncName : CString := .ofBytes [92, 92, 63, 92, 85, 78, 67, 92, 115, 114, 118]

def uncTable : List HandleName := [HandleName.of unc.1 unc.2]

theorem uncTable_table : ∃ s, run (addAll 1 [unc]) new = some s ∧ Table s uncTable :=
  run_table table_new (addAll_fresh [unc] fun _ _ => ⟨rfl, rfl⟩)

/-- On a table of one link. -/
theorem resolveName_law_unc : ∃ s, Table s uncTable ∧
    (ResolvedRight s uncTable uncName 260 true ↔
      Resolvable uncTable true uncName.bytes (260 : UInt32).toNat) := by
  obtain ⟨s, -, is⟩ := uncTable_table
  exact ⟨s, is, resolveName_law is uncName 260 true⟩

/-- The link ends in a backslash and applies, and nothing is resolved. -/
theorem unc_not_resolved : ¬ ∀ (s : State) (table : List HandleName), Table s table →
    ∀ (pszName : CString) (ulTargetLength : UInt32) (fCaseInsensitive : Bool),
      ResolvedRight s table pszName ulTargetLength fCaseInsensitive := by
  intro all
  obtain ⟨s, -, is⟩ := hmInitialize_table
  rw [tableAfter_hmInitialize] at is
  obtain ⟨rc, stores, resolved, final, right⟩ := all s _ is uncName 260 true
  rcases resolveName_spec is uncName 260 true with ⟨resolved', -⟩ | ⟨name, -, found⟩
  · obtain ⟨rfl, -⟩ := Prod.mk.inj (Option.some.inj (resolved.symm.trans resolved'))
    have applies := final.mp rfl (HandleName.of unc.1 unc.2) (by simp)
    revert applies
    decide +kernel
  · revert found
    have none : ([HandleName.of global.1 global.2, HandleName.of unc.1 unc.2] ++
        (List.range 26).reverse.map fun i =>
          HandleName.of (drive (UInt8.ofNat (65 + i))).1 (drive (UInt8.ofNat (65 + i))).2).find?
          (fun name => name.taken uncName.bytes true) = Option.none := by decide +kernel
    rw [none]
    rintro ⟨⟩

end Odin32.HandleNames
