import Odin32.LxForwarder

/-! # More modules than an entry can name

The field of a forwarder for its module has sixteen bits, and the table of modules no limit. -/

set_option autoImplicit false

namespace Odin32.LxEntries
open ByteMemory ByteTable Word LxNames LxPages

/-- Four letters for a number of sixteen bits. -/
def letters (n : ℕ) : List UInt8 :=
  [n / 0x1000, n / 0x100, n / 0x10, n].map fun d => UInt8.ofNat (0x41 + d % 16)

theorem letter_toNat (d : ℕ) : (UInt8.ofNat (0x41 + d % 16)).toNat = 0x41 + d % 16 :=
  Nat.mod_eq_of_lt (by omega)

theorem upcase_letter (d : ℕ) : upcase (UInt8.ofNat (0x41 + d % 16)) = UInt8.ofNat (0x41 + d % 16) := by
  unfold upcase
  rw [if_neg]
  rintro ⟨low, -⟩
  have := UInt8.le_iff_toNat_le.1 low
  rw [letter_toNat] at this
  have : (0x61 : UInt8).toNat = 97 := rfl
  omega

theorem letters_chars (n : ℕ) : (0 : UInt8) ∉ letters n := by
  intro h
  obtain ⟨d, -, zero⟩ := List.mem_map.1 h
  have := congrArg UInt8.toNat zero
  rw [letter_toNat] at this
  have : (0 : UInt8).toNat = 0 := rfl
  omega

theorem map_upcase_letters (n : ℕ) : (letters n).map upcase = letters n := by
  simp only [letters, List.map_cons, List.map_nil, upcase_letter]

theorem letters_inj {m n : ℕ} (hm : m < 0x10000) (hn : n < 0x10000) (same : letters m = letters n) :
    m = n := by
  simp only [letters, List.map_cons, List.map_nil, List.cons.injEq, and_true] at same
  obtain ⟨a, b, c, d⟩ := same
  replace a := congrArg UInt8.toNat a
  replace b := congrArg UInt8.toNat b
  replace c := congrArg UInt8.toNat c
  replace d := congrArg UInt8.toNat d
  simp only [letter_toNat] at a b c d
  omega

def lettersName (n : ℕ) : CStr := ⟨letters n, letters_chars n⟩

theorem odinName_letters (n : ℕ) : LxModules.odinName {} lettersName n = letters n := by
  have other : paLieList.find? (fun e => stricmp e.1 (letters n)) = none := by
    refine List.find?_eq_none.2 fun e he same => ?_
    have lengths : ∀ e ∈ paLieList, e.1.length ≠ 4 := by decide +kernel
    have := congrArg List.length (of_decide_eq_true same)
    rw [List.length_map, List.length_map] at this
    exact lengths e he this
  simp only [LxModules.odinName, queryOdin32ModuleName, lettersName, other]
  rfl

theorem letters_apart (i j : ℕ) (before : i < j) (small : j < 0x10000) :
    LxModules.answers true (LxModules.stored (letters i)) (letters j) = false := by
  have whole : LxModules.stored (letters i) = letters i := rfl
  rw [whole, LxModules.answers, if_neg (by simp [letters]), decide_eq_false_iff_not]
  intro begins
  unfold LxModules.Begins at begins
  rw [map_upcase_letters, map_upcase_letters] at begins
  exact absurd (letters_inj (before.trans small) small (begins.eq_of_length rfl)) (by omega)

theorem exists_manyModules : ∃ t,
    LxModules.tableBefore {} false (fun _ => 0) (fun _ => ⟨true, true⟩) lettersName 65535 = .ok t ∧
    LxModules.Holds false t ((List.range 65535).map letters) := by
  obtain ⟨t, done⟩ := LxModules.exists_tableBefore {} lettersName true 65535
  refine ⟨t, done, ?_⟩
  have holds := (LxModules.tableBefore_holds (fun h => absurd h Bool.false_ne_true)).2 t done
  have names : LxModules.odinName {} lettersName = letters := funext odinName_letters
  rw [LxModules.entries, names, FirstMatch.table_of_apart] at holds
  · exact holds
  · intro i j before small
    exact letters_apart i j before (by omega)

theorem forwarderModule_manyModules {t : NameTable} {r : ModuleAnswer × NameTable}
    (holds : LxModules.Holds false t ((List.range 65535).map letters))
    (done : forwarderModule {} false ⟨true, true⟩ t (lettersName 65535) = .ok r) :
    r.1.ulModuleOrdinal = 0x10000 := by
  have some_there : t.offCur ≠ 0 := by
    intro none_there
    have len := holds.table.length
    rw [none_there, List.length_eq_zero_iff, List.flatMap_eq_nil_iff] at len
    have := len (letters 0) (List.mem_map.2 ⟨0, List.mem_range.2 (by decide), rfl⟩)
    exact absurd this (by simp [Record.bytes])
  rw [forwarderModule, if_neg some_there, Except.bind] at done
  obtain ⟨-, spec⟩ := LxModules.addModule_eq ⟨true, true⟩ (lettersName 65535) holds
    (fun h => absurd h Bool.false_ne_true)
  obtain ⟨ordinal, -, -⟩ := spec r.1 r.2 done
  have name : queryOdin32ModuleName {} (lettersName 65535).val = letters 65535 :=
    odinName_letters 65535
  rw [ordinal, name, FirstMatch.ask_of_none, List.length_map, List.length_range]
  intro q hq
  obtain ⟨i, hi, rfl⟩ := List.mem_map.1 hq
  exact letters_apart i 65535 (List.mem_range.1 hi) (by decide)

theorem addLastEntry_ok (st : Tables) : ∃ last, addLastEntry true st = .ok last := by
  unfold addLastEntry
  split
  · rename_i refused
    exact absurd (allocateMore_eq_none refused) (by decide)
  · exact ⟨_, rfl⟩

end Odin32.LxEntries
