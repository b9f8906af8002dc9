import Odin32.FirstMatch
import Odin32.LxNames

/-! # The import module table

What a sequence of `addModule` calls makes of an empty table. The search compares a name
with as many characters as the record has, so that it answers with the first record that
the name begins with. -/

set_option autoImplicit false

namespace Odin32.LxModules
open ByteMemory ByteTable Word LxNames FirstMatch

/-- The characters of `a` begin `b`, in any case. -/
def Begins (a b : List UInt8) : Prop := a.map upcase <+: b.map upcase

instance (a b : List UInt8) : Decidable (Begins a b) :=
  inferInstanceAs (Decidable (a.map upcase <+: b.map upcase))

def Same (a b : List UInt8) : Prop := a.map upcase = b.map upcase

instance (a b : List UInt8) : Decidable (Same a b) :=
  inferInstanceAs (Decidable (a.map upcase = b.map upcase))

/-- What is stored of a name. -/
def stored (name : List UInt8) : List UInt8 := name.take 255

/-- What the comparison of a record with a name answers; that of an empty record compares
nothing. -/
def answers (last : Bool) (record name : List UInt8) : Bool :=
  if record = [] then last else decide (Begins record name)

def moduleRecord (name : List UInt8) : Record := ⟨name, []⟩

/-- The table is made of these records, and their length bytes read as their lengths. -/
structure Holds (signed : Bool) (names : NameTable) (records : List (List UInt8)) : Prop where
  table : names.block.Table names.offCur (records.flatMap fun r => (moduleRecord r).bytes)
  length : ∀ r ∈ records, r.length ≤ if signed then 127 else 255
  chars : ∀ r ∈ records, (0 : UInt8) ∉ r

theorem strnicmp_eq (m : Mem) (last : Bool) {a : ℕ} {record : List UInt8} (name : List UInt8)
    (at_a : slice m a record.length = record) (chars : (0 : UInt8) ∉ record) :
    strnicmp m last a name record.length = answers last record name := by
  induction record generalizing a name last with
  | nil => cases name <;> rfl
  | cons ch record ih =>
    rw [List.length_cons, slice_succ] at at_a
    obtain ⟨first, rest⟩ := List.cons.inj at_a
    have nonzero : m a ≠ 0 := fun h => chars (by rw [← first, h]; exact List.mem_cons_self ..)
    cases name with
    | nil =>
      simp [strnicmp, nonzero, answers, Begins]
    | cons ch' name =>
      have tail : answers true record name = decide (Begins record name) := by
        unfold answers
        split
        · rename_i empty
          simp [empty, Begins]
        · rfl
      rw [List.length_cons, strnicmp, if_neg nonzero,
        ih true name rest (fun h => chars (List.mem_cons_of_mem _ h)), tail, first]
      unfold answers
      rw [if_neg (List.cons_ne_nil _ _)]
      by_cases same : upcase ch = upcase ch'
      · rw [if_pos same, decide_eq_decide, Begins, Begins, List.map_cons, List.map_cons, same,
          List.cons_prefix_cons]
        exact (and_iff_right rfl).symm
      · rw [if_neg same, eq_comm, decide_eq_false_iff_not, Begins, List.map_cons, List.map_cons,
          List.cons_prefix_cons]
        exact fun h => same h.1

theorem not_negative {signed : Bool} {n : ℕ} (short : n ≤ if signed then 127 else 255) :
    ¬negative signed (UInt8.ofNat n) := by
  rintro ⟨rfl, high⟩
  have := UInt8.le_iff_toNat_le.1 high
  have : (UInt8.ofNat n).toNat = n % 256 := rfl
  have : (0x80 : UInt8).toNat = 128 := rfl
  simp only [if_true] at short
  omega

theorem toNat_ofNat {n : ℕ} (short : n ≤ 255) : (UInt8.ofNat n).toNat = n :=
  Nat.mod_eq_of_lt (by omega)

theorem le_255 {signed : Bool} {n : ℕ} (short : n ≤ if signed then 127 else 255) : n ≤ 255 := by
  split at short
  · omega
  · exact short

theorem findModule_eq (signed last : Bool) (names : NameTable) (name : List UInt8)
    {records : List (List UInt8)} {off n : ℕ} (rounds ord : ℕ)
    (from_off : slice names.block.bytes off n = records.flatMap fun r => (moduleRecord r).bytes)
    (to_end : off + n = names.offCur) (enough : n < rounds)
    (length : ∀ r ∈ records, r.length ≤ if signed then 127 else 255)
    (chars : ∀ r ∈ records, (0 : UInt8) ∉ r) :
    findModule signed last names name rounds off ord =
      match records.findIdx? fun r => answers last r name with
      | some i => .found (ord + i)
      | none => .passed names.offCur (ord + records.length) := by
  induction records generalizing rounds off n ord with
  | nil =>
    obtain ⟨rounds, rfl⟩ : ∃ k, rounds = k + 1 := Nat.exists_eq_succ_of_ne_zero (by omega)
    have none_left : n = 0 := by simpa using congrArg List.length from_off
    rw [findModule, if_pos (by omega), List.findIdx?_nil]
    simp only [Search.passed.injEq]
    exact ⟨by omega, rfl⟩
  | cons r records ih =>
    obtain ⟨rounds, rfl⟩ : ∃ k, rounds = k + 1 := Nat.exists_eq_succ_of_ne_zero (by omega)
    have short := length r (List.mem_cons_self ..)
    have len := congrArg List.length from_off
    rw [List.flatMap_cons, length_slice, List.length_append] at len
    have size : (moduleRecord r).bytes.length = r.length + 1 := by
      simp [Record.bytes, moduleRecord]
    rw [size] at len
    obtain ⟨k, rfl⟩ : ∃ k, n = 1 + r.length + k := ⟨n - (1 + r.length), by omega⟩
    have parts : slice names.block.bytes off (1 + r.length + k) =
        names.block.bytes off :: (slice names.block.bytes (off + 1) r.length ++
          slice names.block.bytes (off + (1 + r.length)) k) := by
      rw [slice_add, slice_add, slice_one]
      rfl
    rw [parts, List.flatMap_cons, Record.bytes, moduleRecord, List.append_nil,
      List.cons_append] at from_off
    obtain ⟨count, from_off⟩ := List.cons.inj from_off
    obtain ⟨here, behind⟩ := List.append_inj from_off (length_slice _ _ _)
    have plain := not_negative short
    rw [findModule, if_neg (by omega), count, charToSize, if_neg plain, skipRecord, if_neg plain,
      toNat_ofNat (le_255 short),
      strnicmp_eq names.block.bytes last name here (chars r (List.mem_cons_self ..)),
      List.findIdx?_cons]
    by_cases hit : answers last r name = true
    · rw [if_pos hit, if_pos hit]
      rfl
    · rw [if_neg hit, if_neg hit, ih rounds (ord + 1) behind (by omega)
        (by omega) (fun r hr => length r (List.mem_cons_of_mem _ hr))
        (fun r hr => chars r (List.mem_cons_of_mem _ hr))]
      cases records.findIdx? fun r => answers last r name with
      | some i => exact congrArg Search.found (show ord + 1 + i = ord + (i + 1) by omega)
      | none => exact congrArg (Search.passed _) (by rw [List.length_cons]; omega)

theorem paLieList_chars : ∀ e ∈ paLieList, (0 : UInt8) ∉ e.2 := by decide +kernel

theorem odinName_chars (opt : Options) (name : CStr) :
    (0 : UInt8) ∉ queryOdin32ModuleName opt name.val := by
  unfold queryOdin32ModuleName
  split
  · exact name.property
  · cases found : paLieList.find? fun e => stricmp e.1 name.val with
    | some e => exact paLieList_chars e (List.mem_of_find?_eq_some found)
    | none => exact name.property

theorem addModule_eq {opt : Options} {signed : Bool} (env : Env) {names : NameTable}
    {records : List (List UInt8)} (name : CStr) (holds : Holds signed names records)
    (short : signed = true → (queryOdin32ModuleName opt name.val).length ≤ 127) :
    addModule opt signed env names name ≠ .error .hangs ∧
    ∀ answer next, addModule opt signed env names name = .ok (answer, next) →
      answer.ulModuleOrdinal =
        (ask (answers env.last) stored records (queryOdin32ModuleName opt name.val)).1 + 1 ∧
      (∀ off ∈ answer.passed, off = names.offCur) ∧
      Holds signed next
        (ask (answers env.last) stored records (queryOdin32ModuleName opt name.val)).2 := by
  set odinName := queryOdin32ModuleName opt name.val with odin
  have size := holds.table.length
  have searched := findModule_eq signed env.last names odinName (names.offCur + 1) 1
    holds.table.holds (by omega) (by omega) holds.length holds.chars
  simp only [addModule, ← odin, searched]
  cases found : records.findIdx? fun r => answers env.last r odinName with
  | some i =>
    refine ⟨by simp, fun answer next done => ?_⟩
    obtain ⟨rfl, rfl⟩ := Prod.mk.inj (Except.ok.inj done)
    rw [ask_of_hit found]
    exact ⟨Nat.add_comm 1 i, fun _ h => absurd h (by simp), holds⟩
  | none =>
    simp only
    cases grown : names.block.allocateMore (names.offCur + 1 + min odinName.length 255)
        (1 + min odinName.length 255) (1 + min odinName.length 255) env.room with
    | none => exact ⟨by simp, fun _ _ done => absurd done (by simp)⟩
    | some block =>
      refine ⟨by simp, fun answer next done => ?_⟩
      obtain ⟨rfl, rfl⟩ := Prod.mk.inj (Except.ok.inj done)
      obtain ⟨table, room, -⟩ := holds.table.allocateMore (by omega) (by omega) grown
      have len : (odinName.take (min odinName.length 255)).length = min odinName.length 255 := by
        rw [List.length_take]
        omega
      have bytes : UInt8.ofNat (min odinName.length 255) ::
          odinName.take (min odinName.length 255) = (moduleRecord (stored odinName)).bytes := by
        have cut : odinName.take (min odinName.length 255) = stored odinName :=
          List.take_eq_take_iff.2 (by omega)
        rw [Record.bytes, moduleRecord, List.append_nil, ← cut, len]
      rw [ask, found]
      refine ⟨Nat.add_comm 1 _, fun _ h => (Option.some.inj h).symm, ?_, ?_, ?_⟩
      · have put := table.put (l := UInt8.ofNat (min odinName.length 255) ::
          odinName.take (min odinName.length 255)) (by rw [List.length_cons, len]; omega)
        rw [List.length_cons, len, bytes] at put
        rw [bytes]
        simpa using put
      · intro r hr
        rcases List.mem_append.1 hr with before | new
        · exact holds.length r before
        · obtain rfl := List.mem_singleton.1 new
          rw [stored, List.length_take]
          cases signed with
          | true => exact (Nat.min_le_right _ _).trans (short rfl)
          | false => exact Nat.min_le_left _ _
      · intro r hr
        rcases List.mem_append.1 hr with before | new
        · exact holds.chars r before
        · obtain rfl := List.mem_singleton.1 new
          exact fun h => odinName_chars opt name (List.mem_of_mem_take h)

section Runs

variable (opt : Options) (signed : Bool) (fresh : Mem) (envs : ℕ → Env) (names : ℕ → CStr)

/-- The table before call `n`. -/
def tableBefore : ℕ → Except Stop NameTable
  | 0 => .ok ⟨Block.none fresh, 0⟩
  | n + 1 => (tableBefore n).bind fun t =>
    (addModule opt signed (envs n) t (names n)).map Prod.snd

/-- What call `n` answers. -/
def answer (n : ℕ) : Except Stop ModuleAnswer :=
  (tableBefore opt signed fresh envs names n).bind fun t =>
    (addModule opt signed (envs n) t (names n)).map Prod.fst

def odinName (n : ℕ) : List UInt8 := queryOdin32ModuleName opt (names n).val

/-- The records of a table, read from its bytes. -/
def NameTable.records (t : NameTable) : Option (List Record) :=
  readRecords 0 t.offCur (slice t.block.bytes 0 t.offCur)

/-- The ordinals that `n` calls answered with stand for the whole names they were given. -/
structure Identifies (n : ℕ) (t : NameTable) : Prop where
  denotes : ∃ records, NameTable.records t = some records ∧
    ∀ j < n, ∀ a, answer opt signed fresh envs names j = .ok a →
      ∃ r, 0 < a.ulModuleOrdinal ∧ records[a.ulModuleOrdinal - 1]? = some r ∧
        Same r.name (stored (odinName opt names j))
  whole : ∀ i < n, ∀ j < n, ∀ a b, answer opt signed fresh envs names i = .ok a →
    answer opt signed fresh envs names j = .ok b →
      (a.ulModuleOrdinal = b.ulModuleOrdinal ↔ Same (odinName opt names i) (odinName opt names j))
  ends : ∀ j < n, ∀ u, tableBefore opt signed fresh envs names j = .ok u →
    ∀ a, answer opt signed fresh envs names j = .ok a → ∀ off ∈ a.passed, off = u.offCur

end Runs

/-- Whatever the calls find beside the tables: none hangs, and when all of them succeed the
ordinals identify the names. -/
def Identified (opt : Options) (signed : Bool) (names : ℕ → CStr) (n : ℕ) : Prop :=
  ∀ fresh envs, tableBefore opt signed fresh envs names n ≠ .error .hangs ∧
    ∀ t, tableBefore opt signed fresh envs names n = .ok t →
      Identifies opt signed fresh envs names n t

/-- No name begins with what is stored of an earlier one, unless the name itself came before
that one; and there is one empty name at most. -/
structure Unambiguous (qs : ℕ → List UInt8) (n : ℕ) : Prop where
  clear : ∀ j < n, ∀ i < j, Begins (stored (qs i)) (qs j) → ∃ k ≤ i, Same (qs k) (qs j)
  once : ∀ j < n, ∀ i < j, qs i = [] → qs j ≠ []

section Table

variable (lasts : ℕ → Bool) (qs : ℕ → List UInt8)

abbrev entries (n : ℕ) : List (List UInt8) := table (fun k => answers (lasts k)) stored qs n

abbrev entry (n : ℕ) : ℕ := index (fun k => answers (lasts k)) stored qs n

/-- The entries identify the first `n` names. -/
structure Told (n : ℕ) : Prop where
  denotes : ∀ j < n, ∀ r, (entries lasts qs n)[entry lasts qs j]? = some r → Same r (stored (qs j))
  whole : ∀ i < n, ∀ j < n, (entry lasts qs i = entry lasts qs j ↔ Same (qs i) (qs j))

variable {lasts qs}

theorem Same.begins {a b : List UInt8} (same : Same a b) : Begins (stored a) b := by
  unfold Begins
  rw [stored, List.map_take, show a.map upcase = b.map upcase from same]
  exact List.take_prefix _ _

theorem Same.stored {a b : List UInt8} (same : Same a b) : Same (stored a) (stored b) := by
  unfold Same LxModules.stored
  rw [List.map_take, List.map_take, show a.map upcase = b.map upcase from same]

theorem begins_of_same {a b c : List UInt8} (same : Same a b) (begins : Begins b c) :
    Begins a c := by
  unfold Begins
  rwa [show a.map upcase = b.map upcase from same]

theorem stored_eq_nil {a : List UInt8} : stored a = [] ↔ a = [] := by
  simp [stored]

theorem Unambiguous.told {n : ℕ} (clear : Unambiguous qs n) : Told lasts qs n := by
  induction n with
  | zero =>
    exact ⟨fun j h => absurd h (Nat.not_lt_zero j), fun i h => absurd h (Nat.not_lt_zero i)⟩
  | succ n ih =>
    have told := ih ⟨fun j hj => clear.clear j (hj.trans n.lt_succ_self),
      fun j hj => clear.once j (hj.trans n.lt_succ_self)⟩
    have own : ∀ j < n, ∃ inside : entry lasts qs j < (entries lasts qs n).length,
        Same (entries lasts qs n)[entry lasts qs j] (stored (qs j)) := fun j hj =>
      ⟨index_lt_of_lt hj, told.denotes j hj _ (List.getElem?_eq_getElem (index_lt_of_lt hj))⟩
    -- The entry of an earlier request for the same name answers.
    have hits : ∀ j < n, Same (qs j) (qs n) → 
        ∀ inside : entry lasts qs j < (entries lasts qs n).length,
          answers (lasts n) (entries lasts qs n)[entry lasts qs j] (qs n) = true := by
      intro j hj same inside
      obtain ⟨_, mine⟩ := own j hj
      have begins := begins_of_same mine same.begins
      unfold answers
      split
      · rename_i empty
        rw [empty] at mine
        have none_there : qs j = [] := stored_eq_nil.1 (by simpa [Same] using mine.symm)
        rw [none_there] at same
        exact absurd (by simpa [Same] using same.symm) (clear.once n n.lt_succ_self j hj none_there)
      · exact decide_eq_true begins
    have asked := ask_cases (answers (lasts n)) stored (entries lasts qs n) (qs n)
    -- What the new name is told, from what the earlier ones are.
    have extend : (∀ r, (entries lasts qs (n + 1))[entry lasts qs n]? = some r →
          Same r (stored (qs n))) →
        (∀ j < n, (entry lasts qs j = entry lasts qs n ↔ Same (qs j) (qs n))) →
        Told lasts qs (n + 1) := by
      intro denotes whole
      constructor
      · intro j hj r there
        rcases Nat.lt_succ_iff_lt_or_eq.1 hj with before | rfl
        · refine told.denotes j before r ?_
          have inside : entry lasts qs j < (entries lasts qs n).length := index_lt_of_lt before
          rw [← there, List.getElem?_eq_getElem inside, List.getElem?_eq_getElem
            (inside.trans_le (table_front_succ n).length_le)]
          exact congrArg some ((table_front_succ n).getElem inside)
        · exact denotes r there
      · intro i hi j hj
        rcases Nat.lt_succ_iff_lt_or_eq.1 hi with hi | rfl
        · rcases Nat.lt_succ_iff_lt_or_eq.1 hj with hj | rfl
          · exact told.whole i hi j hj
          · exact whole i hi
        · rcases Nat.lt_succ_iff_lt_or_eq.1 hj with hj | rfl
          · rw [eq_comm, whole j hj]
            exact eq_comm
          · exact iff_of_true rfl rfl
    obtain ⟨o, inside, hit, first, went⟩ | ⟨none_there, went⟩ := asked
    · have at_o : entry lasts qs n = o := congrArg Prod.fst went
      have kept : entries lasts qs (n + 1) = entries lasts qs n := congrArg Prod.snd went
      obtain ⟨i, hi, made_at, made, first_made⟩ := exists_maker inside
      have begins : Begins (stored (qs i)) (qs n) := by
        rw [made] at hit
        unfold answers at hit
        split at hit
        · rename_i empty
          rw [empty]
          exact List.nil_prefix
        · exact of_decide_eq_true hit
      obtain ⟨k, hk, same⟩ := clear.clear n n.lt_succ_self i hi begins
      -- No entry in front of this one answers, so that the name is the one it was made for.
      have at_i : k = i := by
        by_contra other
        have in_front : entry lasts qs k < o := first_made k (by omega)
        have := hits k (by omega) same (in_front.trans inside)
        rw [first _ (in_front.trans inside) in_front] at this
        exact Bool.false_ne_true this
      rw [at_i] at same
      refine extend ?_ ?_
      · intro r there
        rw [at_o, kept, List.getElem?_eq_getElem inside, made] at there
        obtain rfl := Option.some.inj there
        exact same.stored
      · intro j hj
        rw [at_o, ← made_at, told.whole j hj i hi]
        exact ⟨fun h => h.trans same, fun h => h.trans same.symm⟩
    · have at_end : entry lasts qs n = (entries lasts qs n).length := congrArg Prod.fst went
      have grown : entries lasts qs (n + 1) = entries lasts qs n ++ [stored (qs n)] :=
        congrArg Prod.snd went
      refine extend ?_ ?_
      · intro r there
        rw [at_end, grown, List.getElem?_concat_length] at there
        obtain rfl := Option.some.inj there
        rfl
      · intro j hj
        have inside : entry lasts qs j < (entries lasts qs n).length := index_lt_of_lt hj
        refine iff_of_false (by omega) fun same => ?_
        have := hits j hj same inside
        rw [none_there _ (List.getElem_mem _)] at this
        exact Bool.false_ne_true this

theorem unambiguous_of_told {n : ℕ} (one : Told (fun _ => true) qs n)
    (zero : Told (fun _ => false) qs n) : Unambiguous qs n := by
  constructor
  · intro j hj i hi begins
    have inside : entry (fun _ => true) qs i < (entries (fun _ => true) qs j).length :=
      index_lt_of_lt hi
    have grown : entries (fun _ => true) qs j <+: entries (fun _ => true) qs n :=
      table_front hj.le
    have mine := one.denotes i (hi.trans hj)
      (entries (fun _ => true) qs j)[entry (fun _ => true) qs i]
      (by rw [grown.getElem inside]; exact List.getElem?_eq_getElem _)
    have hit : answers true (entries (fun _ => true) qs j)[entry (fun _ => true) qs i]
        (qs j) = true := by
      unfold answers
      split
      · rfl
      · exact decide_eq_true (begins_of_same mine begins)
    obtain ⟨o, _, -, first, went⟩ | ⟨none_there, -⟩ :=
      ask_cases (answers true) stored (entries (fun _ => true) qs j) (qs j)
    · have at_o : entry (fun _ => true) qs j = o := congrArg Prod.fst went
      rcases Nat.lt_trichotomy o (entry (fun _ => true) qs i) with in_front | same | behind
      · have there : o < (entries (fun _ => true) qs n).length :=
          (in_front.trans inside).trans_le grown.length_le
        obtain ⟨c, hc, made_at, -, first_made⟩ := exists_maker there
        refine ⟨c, ?_, (one.whole c hc j hj).1 (made_at.trans at_o.symm)⟩
        by_contra later
        have lower : entry (fun _ => true) qs i < o := first_made i (by omega)
        omega
      · exact ⟨i, Nat.le_refl i, (one.whole i (hi.trans hj) j hj).1 (same.symm.trans at_o.symm)⟩
      · rw [first _ inside behind] at hit
        exact absurd hit Bool.false_ne_true
    · rw [none_there _ (List.getElem_mem _)] at hit
      exact absurd hit Bool.false_ne_true
  · intro j hj i hi empty_i empty_j
    have inside : entry (fun _ => false) qs i < (entries (fun _ => false) qs j).length :=
      index_lt_of_lt hi
    have together := (zero.whole i (hi.trans hj) j hj).2 (by rw [empty_i, empty_j]; rfl)
    obtain ⟨o, there, hit, -, -⟩ | ⟨-, went⟩ :=
      ask_cases (answers false) stored (entries (fun _ => false) qs j) (qs j)
    · rw [empty_j] at hit
      unfold answers at hit
      split at hit
      · exact absurd hit Bool.false_ne_true
      · rename_i nonempty
        exact nonempty (by simpa [Begins] using of_decide_eq_true hit)
    · have at_end : entry (fun _ => false) qs j = (entries (fun _ => false) qs j).length :=
        congrArg Prod.fst went
      omega

end Table

section Runs

variable {opt : Options} {signed : Bool} {fresh : Mem} {envs : ℕ → Env} {names : ℕ → CStr}

theorem tableBefore_holds {n : ℕ}
    (short : signed = true → ∀ j < n, (odinName opt names j).length ≤ 127) :
    tableBefore opt signed fresh envs names n ≠ .error .hangs ∧
    ∀ t, tableBefore opt signed fresh envs names n = .ok t →
      Holds signed t (entries (fun k => (envs k).last) (odinName opt names) n) := by
  induction n with
  | zero =>
    refine ⟨by simp [tableBefore], fun t done => ?_⟩
    obtain rfl := Except.ok.inj done
    exact ⟨Block.none_table fresh, fun r hr => absurd hr List.not_mem_nil,
      fun r hr => absurd hr List.not_mem_nil⟩
  | succ n ih =>
    obtain ⟨goes_on, ih⟩ := ih fun h j hj => short h j (hj.trans n.lt_succ_self)
    rw [tableBefore]
    cases before : tableBefore opt signed fresh envs names n with
    | error e =>
      rw [before] at goes_on
      exact ⟨goes_on, fun t done => absurd done (by simp [Except.bind])⟩
    | ok u =>
      obtain ⟨ends, spec⟩ := addModule_eq (envs n) (names n) (ih u before)
        fun h => short h n n.lt_succ_self
      simp only [Except.bind]
      cases call : addModule opt signed (envs n) u (names n) with
      | error e =>
        rw [call] at ends
        refine ⟨fun h => ends ?_, fun t done => absurd done (by simp [Except.map])⟩
        exact congrArg Except.error (Except.error.inj h)
      | ok result =>
        refine ⟨by simp [Except.map], fun t done => ?_⟩
        obtain rfl := Except.ok.inj done
        exact (spec result.1 result.2 call).2.2

theorem answer_eq {n : ℕ} (short : signed = true → ∀ j ≤ n, (odinName opt names j).length ≤ 127)
    {u : NameTable} (before : tableBefore opt signed fresh envs names n = .ok u) {a : ModuleAnswer}
    (done : answer opt signed fresh envs names n = .ok a) :
    a.ulModuleOrdinal = entry (fun k => (envs k).last) (odinName opt names) n + 1 ∧
      ∀ off ∈ a.passed, off = u.offCur := by
  have holds := (tableBefore_holds fun h j hj => short h j hj.le).2 u before
  obtain ⟨-, spec⟩ := addModule_eq (envs n) (names n) holds fun h => short h n (Nat.le_refl n)
  rw [answer, before] at done
  simp only [Except.bind] at done
  cases call : addModule opt signed (envs n) u (names n) with
  | error e => rw [call] at done; cases done
  | ok result =>
    rw [call] at done
    obtain rfl := Except.ok.inj done
    obtain ⟨ordinal, passed, -⟩ := spec result.1 result.2 call
    exact ⟨ordinal, passed⟩

theorem exists_answer {n : ℕ} {t : NameTable}
    (done : tableBefore opt signed fresh envs names n = .ok t) {j : ℕ} (hj : j < n) :
    (∃ u, tableBefore opt signed fresh envs names j = .ok u) ∧
      ∃ a, answer opt signed fresh envs names j = .ok a := by
  induction n generalizing t with
  | zero => exact absurd hj (Nat.not_lt_zero j)
  | succ n ih =>
    rw [tableBefore] at done
    cases before : tableBefore opt signed fresh envs names n with
    | error e => rw [before] at done; cases done
    | ok u =>
      rcases Nat.lt_succ_iff_lt_or_eq.1 hj with earlier | rfl
      · exact ih before earlier
      · refine ⟨⟨u, before⟩, ?_⟩
        rw [before] at done
        simp only [Except.bind] at done
        cases call : addModule opt signed (envs j) u (names j) with
        | error e => rw [call] at done; cases done
        | ok result => exact ⟨result.1, by rw [answer, before]; simp only [Except.bind, call]; rfl⟩

theorem records_eq {t : NameTable} {records : List (List UInt8)} (holds : Holds signed t records) :
    NameTable.records t = some (records.map moduleRecord) := by
  have flat : (records.flatMap fun r => (moduleRecord r).bytes) =
      (records.map moduleRecord).flatMap Record.bytes := by
    rw [List.flatMap_map]
  rw [NameTable.records, holds.table.holds, flat]
  refine readRecords_flatMap ?_ (by rw [← flat]; exact holds.table.length.le)
  intro r hr
  obtain ⟨name, there, rfl⟩ := List.mem_map.1 hr
  have := le_255 (holds.length name there)
  exact ⟨by simp only [moduleRecord]; omega, rfl⟩

theorem identifies_iff_told {n : ℕ}
    (short : signed = true → ∀ j < n, (odinName opt names j).length ≤ 127) {t : NameTable}
    (done : tableBefore opt signed fresh envs names n = .ok t) :
    Identifies opt signed fresh envs names n t ↔
      Told (fun k => (envs k).last) (odinName opt names) n := by
  have ordinal : ∀ j < n, ∀ a, answer opt signed fresh envs names j = .ok a →
      a.ulModuleOrdinal = entry (fun k => (envs k).last) (odinName opt names) j + 1 := by
    intro j hj a answered
    obtain ⟨⟨u, before⟩, -⟩ := exists_answer done hj
    exact (answer_eq (fun h k hk => short h k (by omega)) before answered).1
  have holds := (tableBefore_holds short).2 t done
  have read := records_eq holds
  constructor
  · intro id
    obtain ⟨records, same, denotes⟩ := id.denotes
    obtain rfl := Option.some.inj (read.symm.trans same)
    constructor
    · intro j hj r there
      obtain ⟨-, a, answered⟩ := exists_answer done hj
      obtain ⟨r', -, at_j, named⟩ := denotes j hj a answered
      rw [ordinal j hj a answered, Nat.add_sub_cancel, List.getElem?_map, there] at at_j
      obtain rfl := Option.some.inj at_j
      exact named
    · intro i hi j hj
      obtain ⟨-, a, ha⟩ := exists_answer done hi
      obtain ⟨-, b, hb⟩ := exists_answer done hj
      have := id.whole i hi j hj a b ha hb
      rw [ordinal i hi a ha, ordinal j hj b hb] at this
      exact ⟨fun h => this.1 (congrArg (· + 1) h), fun h => Nat.succ.inj (this.2 h)⟩
  · intro told
    refine ⟨⟨_, read, ?_⟩, ?_, ?_⟩
    · intro j hj a answered
      have inside : entry (fun k => (envs k).last) (odinName opt names) j <
          (entries (fun k => (envs k).last) (odinName opt names) n).length := index_lt_of_lt hj
      have at_j := List.getElem?_eq_getElem inside
      refine ⟨moduleRecord _, ?_, ?_, told.denotes j hj _ at_j⟩
      · rw [ordinal j hj a answered]
        exact Nat.succ_pos _
      · rw [ordinal j hj a answered, Nat.add_sub_cancel, List.getElem?_map, at_j]
        rfl
    · intro i hi j hj a b ha hb
      rw [ordinal i hi a ha, ordinal j hj b hb, ← told.whole i hi j hj]
      exact ⟨Nat.succ.inj, congrArg (· + 1)⟩
    · intro j hj u before a answered
      exact (answer_eq (fun h k hk => short h k (by omega)) before answered).2

theorem exists_tableBefore (opt : Options) (names : ℕ → CStr) (last : Bool) (n : ℕ) :
    ∃ t, tableBefore opt false (fun _ => 0) (fun _ => ⟨true, last⟩) names n = .ok t := by
  induction n with
  | zero => exact ⟨_, rfl⟩
  | succ n ih =>
    obtain ⟨u, before⟩ := ih
    have holds := (tableBefore_holds (fun h => absurd h Bool.false_ne_true)).2 u before
    obtain ⟨ends, -⟩ := addModule_eq ⟨true, last⟩ (names n) holds
      (fun h => absurd h Bool.false_ne_true)
    cases call : addModule opt false ⟨true, last⟩ u (names n) with
    | ok result => exact ⟨result.2, by rw [tableBefore, before]; simp only [Except.bind, call]; rfl⟩
    | error e =>
      exfalso
      rw [call] at ends
      revert call
      rw [addModule]
      split
      · exact fun h => ends h.symm
      · exact fun h => by cases h
      · rw [Block.allocateMore]
        split
        · rename_i grown
          split at grown
          · cases grown
          · cases grown
        · exact fun h => by cases h

end Runs

/-- The ordinals identify the names exactly when the names are unambiguous. With a signed
`CHAR` a length above 127 leads the search backwards; unambiguous names that are shorter
are identified then too. -/
theorem addModule_identified_iff (opt : Options) (names : ℕ → CStr) (n : ℕ) :
    (Identified opt false names n ↔ Unambiguous (odinName opt names) n) ∧
    (Unambiguous (odinName opt names) n → (∀ j < n, (odinName opt names j).length ≤ 127) →
      Identified opt true names n) := by
  have told : ∀ signed, Unambiguous (odinName opt names) n →
      (signed = true → ∀ j < n, (odinName opt names j).length ≤ 127) →
      Identified opt signed names n := by
    intro signed clear short fresh envs
    refine ⟨(tableBefore_holds short).1, fun t done => ?_⟩
    exact (identifies_iff_told short done).2 clear.told
  refine ⟨⟨fun always => ?_, fun clear => told false clear (fun h => absurd h Bool.false_ne_true)⟩,
    fun clear short => told true clear fun _ => short⟩
  have one : ∀ last, Told (fun _ => last) (odinName opt names) n := by
    intro last
    obtain ⟨t, done⟩ := exists_tableBefore opt names last n
    exact (identifies_iff_told (fun h => absurd h Bool.false_ne_true) done).1
      ((always _ _).2 t done)
  exact unambiguous_of_told (one true) (one false)

/-- A module whose name begins the name of the next one. -/
def msvcrt (n : ℕ) : CStr :=
  if n = 0 then ⟨ascii "MSVCRT", by decide⟩ else ⟨ascii "MSVCRT20", by decide⟩

theorem msvcrt_not_identified : ¬∀ opt signed names n, Identified opt signed names n := by
  intro always
  obtain ⟨-, identifies⟩ := always {} false msvcrt 2 (fun _ => 0) fun _ => ⟨true, true⟩
  have same := (identifies _ rfl).whole 0 (by decide) 1 (by decide) ⟨1, some 0⟩ ⟨1, none⟩ rfl rfl
  exact absurd (same.1 rfl) (by decide +kernel)

end Odin32.LxModules
