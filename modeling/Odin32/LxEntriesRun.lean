import Odin32.LxBundles

/-! # Adding entries in ascending order

Each call adds to the list of bundles the entry it was asked for, as far as the fields of an
entry hold it, and stays inside of the block. -/

set_option autoImplicit false

namespace Odin32.LxEntries
open ByteMemory ByteTable Word LxNames LxPages

/-- The table is made of these bundles, and the last one is the current one if any is. -/
structure Holds (st : Tables) (bs : List Bundle) : Prop where
  table : st.bundles.Table st.offCurEntryBundle (allBytes bs)
  ok : ∀ b ∈ bs, b.Ok
  last : st.offLastEntryBundle = st.offCurEntryBundle ∨ ∃ front kind obj es,
    bs = front ++ [.full kind obj es] ∧ st.offLastEntryBundle = (allBytes front).length
  counted : st.ulLastOrdinal = allCount bs

/-- There is room for the largest bundle with an entry of `cbEntry` bytes. -/
def Free (cbEntry : ℕ) (st : Tables) : Prop :=
  st.offCurEntryBundle + 4 + 2 + cbEntry ≤ st.bundles.allocated

theorem holds_init (fresh : Mem) (modules functions : NameTable) :
    Holds (.init fresh modules functions) [] where
  table := Block.none_table fresh
  ok _ h := absurd h List.not_mem_nil
  last := .inl rfl
  counted := rfl

theorem reserve_holds {st next : Tables} {bs : List Bundle} {cbEntry : ℕ} {room : Bool}
    (holds : Holds st bs) (fits : cbEntry ≤ 7) (done : st.reserve cbEntry room = .ok next) :
    Holds next bs ∧ Free cbEntry next ∧ next.modules = st.modules ∧ next.functions = st.functions ∧
      next.ulLastOrdinal = st.ulLastOrdinal := by
  unfold Tables.reserve at done
  split at done
  · cases done
  · rename_i grown
    obtain rfl := Except.ok.inj done
    obtain ⟨table, free, -⟩ := holds.table.allocateMore (by omega) (by omega) grown
    exact ⟨⟨table, holds.ok, holds.last, holds.counted⟩, free, rfl, rfl, rfl⟩

theorem unused_spec {ulOrdinal ulLastOrdinal : ℕ} (gap : ulLastOrdinal + 1 < ulOrdinal)
    (small : ulOrdinal ≤ 65535) : 0 < unused ulOrdinal ulLastOrdinal ∧
      unused ulOrdinal ulLastOrdinal ≤ 255 ∧
      ulLastOrdinal + unused ulOrdinal ulLastOrdinal < ulOrdinal := by
  have minus : sub32 (sub32 ulOrdinal ulLastOrdinal) 1 = ulOrdinal - ulLastOrdinal - 1 := by
    rw [sub32_of_le (show ulLastOrdinal ≤ ulOrdinal by omega) (by omega),
      sub32_of_le (show 1 ≤ ulOrdinal - ulLastOrdinal by omega) (by omega)]
  rw [unused, minus]
  split
  · omega
  · omega

theorem emptyBundle_holds {st : Tables} {bs : List Bundle} {cnt : ℕ} (holds : Holds st bs)
    (pos : 0 < cnt) (le : cnt ≤ 255) (room : st.offCurEntryBundle + 2 ≤ st.bundles.allocated)
    (small : st.ulLastOrdinal + cnt < 0x10000) :
    Holds (emptyBundle cnt st) (bs ++ [.empty cnt]) ∧
      (emptyBundle cnt st).ulLastOrdinal = st.ulLastOrdinal + cnt := by
  have advanced : add32 st.ulLastOrdinal cnt = st.ulLastOrdinal + cnt := add32_of_lt (by omega)
  refine ⟨⟨?_, ?_, .inl rfl, ?_⟩, advanced⟩
  · rw [allBytes_append, allBytes_singleton]
    exact holds.table.put room
  · intro b hb
    rcases List.mem_append.1 hb with before | new
    · exact holds.ok b before
    · obtain rfl := List.mem_singleton.1 new
      exact ⟨pos, le, fun _ _ _ h => by cases h⟩
  · rw [allCount_append, ← holds.counted]
    exact advanced

theorem skipOrdinals_holds {st next : Tables} {bs : List Bundle} {cbEntry ulOrdinal rounds : ℕ}
    {room : Bool} (holds : Holds st bs) (fits : cbEntry ≤ 7) (free : Free cbEntry st)
    (ascends : st.ulLastOrdinal < ulOrdinal) (small : ulOrdinal ≤ 65535)
    (done : skipOrdinals cbEntry room ulOrdinal rounds st = .ok next) :
    ∃ cs, Holds next cs ∧ Free cbEntry next ∧ allEntries 1 cs = allEntries 1 bs ∧
      next.ulLastOrdinal + 1 = ulOrdinal ∧ next.modules = st.modules ∧
      next.functions = st.functions := by
  induction rounds generalizing st bs with
  | zero => cases done
  | succ rounds ih =>
    rw [skipOrdinals, add32_of_lt (by omega)] at done
    split at done
    · rename_i gap
      obtain ⟨pos, le, below⟩ := unused_spec gap small
      have two : st.offCurEntryBundle + 2 ≤ st.bundles.allocated := by
        unfold Free at free
        omega
      obtain ⟨skipped, advanced⟩ := emptyBundle_holds holds pos le two (by omega)
      set mid := emptyBundle (unused ulOrdinal st.ulLastOrdinal) st with named
      cases reserved : mid.reserve cbEntry room with
      | error e => rw [reserved] at done; cases done
      | ok more =>
        rw [reserved] at done
        obtain ⟨held, room_left, modules, functions, ordinal⟩ := reserve_holds skipped fits reserved
        obtain ⟨cs, held, room_left, same, at_end, modules', functions'⟩ :=
          ih held room_left (by omega) done
        refine ⟨cs, held, room_left, ?_, at_end, modules'.trans modules, functions'.trans functions⟩
        rw [same, allEntries_append]
        exact List.append_nil _
    · obtain rfl := Except.ok.inj done
      exact ⟨bs, holds, free, rfl, by omega, rfl, rfl⟩

/-- A bundle, its count apart. -/
def body (kind : Kind) (obj : ℕ) (es : List (List UInt8)) : List UInt8 :=
  kind.type :: (le 2 obj ++ es.flatten)

theorem bytes_full (kind : Kind) (obj : ℕ) (es : List (List UInt8)) :
    (Bundle.full kind obj es).bytes = [UInt8.ofNat es.length] ++ body kind obj es := rfl

theorem body_append (kind : Kind) (obj : ℕ) (es : List (List UInt8)) (entry : List UInt8) :
    body kind obj (es ++ [entry]) = body kind obj es ++ entry := by
  simp [body]

theorem putEntry_holds {st : Tables} {front : List Bundle} {kind : Kind} {obj ulOrdinal : ℕ}
    {es : List (List UInt8)} {entry : List UInt8}
    (table : st.bundles.Table st.offCurEntryBundle
      (allBytes front ++ (Bundle.full kind obj es).bytes))
    (at_last : st.offLastEntryBundle = (allBytes front).length)
    (ok : ∀ b ∈ front, b.Ok) (sizes : ∀ e ∈ es ++ [entry], e.length = kind.size)
    (small : obj < 0x10000) (plain : kind = .entryFwd → obj = 0) (less : es.length < 255)
    (free : st.offCurEntryBundle + entry.length ≤ st.bundles.allocated)
    (ordinal : ulOrdinal = allCount front + es.length + 1) :
    Holds (putEntry entry ulOrdinal st) (front ++ [.full kind obj (es ++ [entry])]) := by
  have added := table.put free
  rw [bytes_full, ← List.append_assoc, List.append_assoc, ← body_append] at added
  have count_there : (st.put st.offCurEntryBundle entry).bundles.bytes st.offLastEntryBundle =
      UInt8.ofNat es.length := by
    have := added.slice_middle
    rw [List.length_singleton, slice_one, ← at_last] at this
    exact (List.cons.inj this).1
  have counted := added.set at_last [UInt8.ofNat es.length + 1] rfl
  have stored : (putEntry entry ulOrdinal st).bundles =
      (st.bundles.put st.offCurEntryBundle entry).put st.offLastEntryBundle
        [UInt8.ofNat es.length + 1] := by
    rw [← count_there]
    rfl
  have next_count : UInt8.ofNat es.length + 1 = UInt8.ofNat (es ++ [entry]).length := by
    rw [List.length_append, List.length_singleton]
    exact (UInt8.ofNat_add _ _).symm
  refine ⟨?_, ?_, .inr ⟨front, kind, obj, es ++ [entry], rfl, at_last⟩, ?_⟩
  · rw [allBytes_append, allBytes_singleton, bytes_full, ← next_count, ← List.append_assoc,
      stored]
    exact counted
  · intro b hb
    rcases List.mem_append.1 hb with before | new
    · exact ok b before
    · obtain rfl := List.mem_singleton.1 new
      have count : (Bundle.full kind obj (es ++ [entry])).count = es.length + 1 := by
        simp [Bundle.count]
      refine ⟨by omega, by omega, ?_⟩
      intro kind' obj' es' same
      cases same
      exact ⟨small, plain, sizes⟩
  · rw [allCount_append]
    simp only [putEntry, allCount, List.map_cons, List.map_nil, List.foldr_cons, List.foldr_nil,
      Bundle.count, List.length_append, List.length_singleton, ordinal]
    omega

theorem Kind.type_inj {k l : Kind} (same : k.type = l.type) : k = l := by
  cases k with
  | entry32 => cases l with
    | entry32 => rfl
    | entryFwd => exact absurd same (by decide)
  | entryFwd => cases l with
    | entry32 => exact absurd same (by decide)
    | entryFwd => rfl

/-- The object that an entry of a kind asks its bundle for. -/
def Kind.object : Kind → ℕ → Option ℕ
  | .entry32, obj => some obj
  | .entryFwd, _ => none

theorem exists_current {st : Tables} {bs : List Bundle} {kind : Kind} {obj : ℕ}
    (holds : Holds st bs) (plain : kind = .entryFwd → obj = 0)
    (joined : joins kind.type (kind.object obj) st) :
    ∃ front es, bs = front ++ [.full kind obj es] ∧
      st.offLastEntryBundle = (allBytes front).length ∧ es.length < 255 := by
  obtain ⟨some_there, type, object, count⟩ := joined
  rcases holds.last with none_there | ⟨front, kind', obj', es, rfl, at_last⟩
  · exact absurd none_there.symm some_there
  have ok := holds.ok _ (List.mem_append_right _ (List.mem_singleton_self _))
  obtain ⟨small, plain', -⟩ := ok.obj kind' obj' es rfl
  have table := holds.table
  rw [allBytes_append, allBytes_singleton, bytes_full] at table
  have parts : allBytes front ++ ([UInt8.ofNat es.length] ++ body kind' obj' es) =
      allBytes front ++ (UInt8.ofNat es.length :: kind'.type :: le 2 obj') ++ es.flatten := by
    simp [body]
  rw [parts] at table
  have head := table.slice_middle
  rw [show (UInt8.ofNat es.length :: kind'.type :: le 2 obj').length = 2 + 2 by simp, slice_add,
    ← at_last, slice_succ, slice_one] at head
  obtain ⟨heads, words⟩ := List.append_inj (show [_, _] ++ _ = [_, _] ++ _ from head) rfl
  obtain ⟨at_count, heads⟩ := List.cons.inj heads
  have same_kind : kind' = kind := Kind.type_inj ((List.cons.inj heads).1.symm.trans type)
  subst same_kind
  have same_obj : obj' = obj := by
    cases kind' with
    | entryFwd => rw [plain' rfl, plain rfl]
    | entry32 =>
      have read := object obj rfl
      have words : slice st.bundles.bytes (st.offLastEntryBundle + 2) 2 = le 2 obj' := words
      rw [word_eq_ofLe, words, ofLe_le_of_lt (by simpa using small)] at read
      exact read
  subst same_obj
  refine ⟨front, es, rfl, at_last, ?_⟩
  have le := ok.le
  rcases Nat.lt_or_eq_of_le le with less | full
  · exact less
  · rw [at_count, show es.length = 255 from full] at count
    exact absurd rfl count

theorem bundleEntry_holds (kind : Kind) (entry : List UInt8) {st : Tables} {bs : List Bundle}
    {obj ulOrdinal : ℕ} (holds : Holds st bs) (free : Free kind.size st)
    (next : st.ulLastOrdinal + 1 = ulOrdinal) (small : obj < 0x10000)
    (plain : kind = .entryFwd → obj = 0) (size : entry.length = kind.size) :
    ∃ cs, Holds (bundleEntry kind.type (kind.object obj) entry ulOrdinal st) cs ∧
      allEntries 1 cs = allEntries 1 bs ++ [(ulOrdinal, kind.read obj entry)] := by
  unfold Free at free
  have grown : ∀ front es, 1 + allCount front + es.length = ulOrdinal →
      allEntries 1 (front ++ [.full kind obj (es ++ [entry])]) =
        allEntries 1 (front ++ [.full kind obj es]) ++ [(ulOrdinal, kind.read obj entry)] := by
    intro front es at_ordinal
    rw [allEntries_append, allEntries_append, List.append_assoc]
    simp only [allEntries, Bundle.entries, List.append_nil]
    rw [entriesFrom_append, at_ordinal]
    rfl
  unfold bundleEntry
  by_cases joined : joins kind.type (kind.object obj) st
  · rw [if_pos joined]
    obtain ⟨front, es, rfl, at_last, less⟩ := exists_current holds plain joined
    have counted := holds.counted
    rw [allCount_append] at counted
    simp only [allCount, List.map_cons, List.map_nil, List.foldr_cons, List.foldr_nil,
      Bundle.count] at counted
    have ok := holds.ok _ (List.mem_append_right _ (List.mem_singleton_self _))
    obtain ⟨-, -, sizes⟩ := ok.obj kind obj es rfl
    have table := holds.table
    rw [allBytes_append, allBytes_singleton] at table
    refine ⟨_, putEntry_holds table at_last (fun b hb => holds.ok b (List.mem_append_left _ hb)) ?_
      small plain less (by omega) ?_, grown front es ?_⟩
    · intro e he
      rcases List.mem_append.1 he with before | new
      · exact sizes e before
      · rw [List.mem_singleton.1 new, size]
    · simp only [allCount]
      omega
    · simp only [allCount]
      omega
  · rw [if_neg joined]
    have object : (kind.object obj).getD 0 = obj := by
      cases kind with
      | entry32 => rfl
      | entryFwd => exact (plain rfl).symm
    rw [object]
    have counted := holds.counted
    have empty : (Bundle.full kind obj []).bytes = 0 :: kind.type :: le 2 obj := by
      simp [Bundle.bytes]
    have four : (0 :: kind.type :: le 2 obj).length = 4 := by simp
    have opened := holds.table.put (l := 0 :: kind.type :: le 2 obj) (by omega)
    rw [four] at opened
    refine ⟨bs ++ [.full kind obj ([] ++ [entry])],
      putEntry_holds (show (newBundle kind.type obj st).bundles.Table _
        (allBytes bs ++ (Bundle.full kind obj []).bytes) from ?_) ?_ holds.ok ?_ small plain
        (by decide) ?_ ?_, ?_⟩
    · rw [empty]
      exact opened
    · exact holds.table.length.symm
    · intro e he
      rw [List.mem_singleton.1 he, size]
    · simp only [newBundle, Tables.put, Block.put]
      omega
    · simp only [List.length_nil]
      omega
    · rw [grown bs [] (by simp only [List.length_nil]; omega), allEntries_append]
      simp [allEntries, Bundle.entries, Bundle.entriesFrom]

/-- A call of `addEntry` or `addForwarderEntry`. -/
inductive Op where
  | entry (ulOrdinal ulRVA : ℕ)
  | forwarder (ulOrdinal : ℕ) (pszDllName pszFnNameOrOrd : CStr)

def Op.ulOrdinal : Op → ℕ
  | entry ulOrdinal _ => ulOrdinal
  | forwarder ulOrdinal _ _ => ulOrdinal

/-- What the calls have in common: how the code was compiled, its options, and the objects. -/
structure Setting where
  opt : Options
  signed : Bool
  debug : Bool
  pe : PeObjects

def step (c : Setting) (env : Env) (st : Tables) : Op → Except Stop Tables
  | .entry ulOrdinal ulRVA => addEntry c.debug c.pe env st ulOrdinal ulRVA
  | .forwarder ulOrdinal pszDllName pszFnNameOrOrd =>
    addForwarderEntry c.opt c.signed env st ulOrdinal pszDllName pszFnNameOrOrd

def run (c : Setting) : List (Op × Env) → Tables → Except Stop Tables
  | [], st => .ok st
  | (op, env) :: ops, st => (step c env st op).bind (run c ops)

/-- What an entry stands for: the object and the offset of its RVA, or the module of a
forwarder with the offset of the procedure's name, or its ordinal. -/
def target (c : Setting) (env : Env) (st : Tables) : Op → Except Stop Entry
  | .entry _ ulRVA => (queryObjectAndOffset c.pe ulRVA).map fun r => .offset32 e32Export r.1 r.2
  | .forwarder _ pszDllName pszFnNameOrOrd =>
    (forwarderOrdinal pszFnNameOrOrd.val).bind fun ulFnOrdinal =>
    (forwarderModule c.opt c.signed env st.modules pszDllName).bind fun r =>
    if flagged ulFnOrdinal then
      .ok (.forward fwdOrdinal r.1.ulModuleOrdinal (ulFnOrdinal % 0x80000000))
    else (addImportFunctionName env.room st.functions pszFnNameOrOrd).map fun s =>
      .forward 0 r.1.ulModuleOrdinal s.1

/-- The entries of a run that succeeds. -/
def targets (c : Setting) : List (Op × Env) → Tables → List (ℕ × Entry)
  | [], _ => []
  | (op, env) :: ops, st =>
    match target c env st op, step c env st op with
    | .ok entry, .ok next => (op.ulOrdinal, entry) :: targets c ops next
    | _, _ => []

/-- An entry as far as its fields hold it: a name that lies too far behind is taken for an
ordinal. -/
def Entry.cut : Entry → Entry
  | .offset32 flags obj offset => .offset32 flags obj offset
  | .forward flags modord value =>
    .forward (if flagged value then fwdOrdinal else flags) (modord % 0x10000) (value % 0x80000000)

/-- An entry that its fields hold. -/
def Entry.Fits : Entry → Prop
  | .offset32 _ _ _ => True
  | .forward _ modord value => modord < 0x10000 ∧ value < 0x80000000

instance (e : Entry) : Decidable e.Fits := by
  cases e with
  | offset32 => exact inferInstanceAs (Decidable True)
  | forward => exact inferInstanceAs (Decidable (_ ∧ _))

theorem Entry.cut_eq_iff (e : Entry) : e.cut = e ↔ e.Fits := by
  cases e with
  | offset32 => exact iff_of_true rfl trivial
  | forward flags modord value =>
    simp only [Entry.cut, Entry.Fits, Entry.forward.injEq]
    constructor
    · rintro ⟨-, mod, val⟩
      rw [← mod, ← val]
      exact ⟨Nat.mod_lt _ (by decide), Nat.mod_lt _ (by decide)⟩
    · rintro ⟨mod, val⟩
      have plain : ¬flagged value := by
        unfold flagged
        omega
      rw [if_neg plain]
      exact ⟨rfl, Nat.mod_eq_of_lt mod, Nat.mod_eq_of_lt val⟩

theorem ok_of_bind {α β : Type} {x : Except Stop α} {f : α → Except Stop β} {b : β}
    (h : x.bind f = .ok b) : ∃ a, x = .ok a ∧ f a = .ok b := by
  cases x with
  | error e => cases h
  | ok a => exact ⟨a, rfl, h⟩

theorem findObject_spec {ulRVA iObj n : ℕ} {paObjects : List LxObject} {o : LxObject}
    (found : findObject ulRVA iObj paObjects = some (n, o)) :
    iObj ≤ n ∧ paObjects[n - iObj]? = some o ∧ ulRVA < add32 o.ulRVA o.cbVirtual := by
  induction paObjects generalizing iObj with
  | nil => cases found
  | cons p rest ih =>
    rw [findObject] at found
    split at found
    · obtain ⟨le, there, inside⟩ := ih found
      refine ⟨by omega, ?_, inside⟩
      obtain ⟨k, rfl⟩ : ∃ k, n = iObj + 1 + k := ⟨n - (iObj + 1), by omega⟩
      rw [show iObj + 1 + k - (iObj + 1) = k by omega] at there
      rw [show iObj + 1 + k - iObj = k + 1 by omega]
      exact there
    · obtain ⟨rfl, rfl⟩ := Prod.mk.inj (Option.some.inj found)
      exact ⟨Nat.le_refl _, by simp, by omega⟩

theorem queryObjectAndOffset_spec {pe : PeObjects} {ulRVA iObj offObject : ℕ}
    (done : queryObjectAndOffset pe ulRVA = .ok (iObj, offObject)) :
    1 ≤ iObj ∧ ∃ o, pe.paObjects[iObj - 1]? = some o ∧ o.ulRVA ≤ ulRVA ∧
      offObject = sub32 ulRVA o.ulRVA ∧
      (pe.fAllInOneObject = false → ulRVA < add32 o.ulRVA o.cbVirtual) := by
  unfold queryObjectAndOffset at done
  split at done
  · rename_i whole
    split at done
    · rename_i first last head _
      split at done
      · rename_i inside
        obtain ⟨rfl, rfl⟩ := Prod.mk.inj (Except.ok.inj done)
        refine ⟨Nat.le_refl 1, first, ?_, inside.1, rfl, fun h => ?_⟩
        · rw [← head, List.head?_eq_getElem?]
        · rw [whole] at h
          cases h
      · cases done
    · cases done
  · split at done
    · cases done
    · rename_i n o found
      obtain ⟨-, there, inside⟩ := findObject_spec found
      split at done
      · cases done
      · obtain ⟨rfl, rfl⟩ := Prod.mk.inj (Except.ok.inj done)
        exact ⟨Nat.succ_le_succ n.zero_le, o, there, by omega, rfl, fun _ => inside⟩

theorem step_holds (c : Setting) (op : Op) {env : Env} {st next : Tables} {bs : List Bundle}
    (holds : Holds st bs) (ascends : st.ulLastOrdinal < op.ulOrdinal) (small : op.ulOrdinal ≤ 65535)
    (done : step c env st op = .ok next) :
    ∃ cs entry, Holds next cs ∧ target c env st op = .ok entry ∧
      next.ulLastOrdinal = op.ulOrdinal ∧
      allEntries 1 cs = allEntries 1 bs ++ [(op.ulOrdinal, entry.cut)] := by
  cases op with
  | entry ulOrdinal ulRVA =>
    simp only [Op.ulOrdinal] at ascends small
    rw [step, addEntry, add32_of_lt (by omega), if_neg (by omega)] at done
    obtain ⟨⟨iObj, offObject⟩, asked, done⟩ := ok_of_bind done
    obtain ⟨more, reserved, done⟩ := ok_of_bind done
    obtain ⟨at_last, skipped, done⟩ := ok_of_bind done
    obtain rfl := Except.ok.inj done
    obtain ⟨pos, o, there, -, off, -⟩ := queryObjectAndOffset_spec asked
    have object : iObj < 0x10000 := by
      have := (List.getElem?_eq_some_iff.1 there).1
      have := c.pe.counted
      omega
    have offset : offObject < 0x100000000 := off ▸ u32_lt _
    obtain ⟨held, free, -, -, ordinal⟩ := reserve_holds holds (by decide) reserved
    obtain ⟨cs, held, free, same, last, -, -⟩ :=
      skipOrdinals_holds held (by decide) free (by omega) small skipped
    obtain ⟨ds, held, added⟩ := bundleEntry_holds .entry32 (e32Export :: le 4 offObject) held
      free last object (fun h => by cases h) (by simp [Kind.size])
    refine ⟨ds, .offset32 e32Export iObj offObject, held, ?_, rfl, ?_⟩
    · rw [target, asked]
      rfl
    · rw [added, same]
      simp only [Kind.read, readOffset32, List.headD_cons, List.drop_one, List.tail_cons,
        Entry.cut, Op.ulOrdinal]
      rw [ofLe_le_of_lt (by simpa using offset)]
  | forwarder ulOrdinal pszDllName pszFnNameOrOrd =>
    simp only [Op.ulOrdinal] at ascends small
    rw [step, addForwarderEntry, add32_of_lt (by omega), if_neg (by omega)] at done
    obtain ⟨more, reserved, done⟩ := ok_of_bind done
    obtain ⟨ulFnOrdinal, converted, done⟩ := ok_of_bind done
    obtain ⟨⟨answer, modules⟩, asked, done⟩ := ok_of_bind done
    obtain ⟨⟨value, functions⟩, named, done⟩ := ok_of_bind done
    obtain ⟨at_last, skipped, done⟩ := ok_of_bind done
    obtain rfl := Except.ok.inj done
    have flag_set : Holds { st with fForwarders := true } bs :=
      ⟨holds.table, holds.ok, holds.last, holds.counted⟩
    obtain ⟨held, free, same_modules, same_functions, ordinal⟩ :=
      reserve_holds flag_set (by decide) reserved
    have started : Holds { more with modules := modules, functions := functions } bs :=
      ⟨held.table, held.ok, held.last, held.counted⟩
    have below : more.ulLastOrdinal < ulOrdinal := by
      rw [ordinal]
      exact ascends
    obtain ⟨cs, held, free, same, last, -, -⟩ :=
      skipOrdinals_holds started (by decide) free below small skipped
    obtain ⟨ds, held, added⟩ := bundleEntry_holds .entryFwd
      ((if flagged value then fwdOrdinal else 0) :: le 2 answer.ulModuleOrdinal ++
        le 4 (value % 0x80000000)) held free last (show 0 < 0x10000 by decide) (fun _ => rfl)
      (by simp [Kind.size])
    have read : Kind.entryFwd.read 0 ((if flagged value then fwdOrdinal else 0) ::
        le 2 answer.ulModuleOrdinal ++ le 4 (value % 0x80000000)) =
        .forward (if flagged value then fwdOrdinal else 0) (answer.ulModuleOrdinal % 0x10000)
          (value % 0x80000000) := by
      have first : (le 2 answer.ulModuleOrdinal ++ le 4 (value % 0x80000000)).take 2 =
          le 2 answer.ulModuleOrdinal := List.take_left' (length_le 2 _)
      have second : (le 2 answer.ulModuleOrdinal ++ le 4 (value % 0x80000000)).drop 2 =
          le 4 (value % 0x80000000) := List.drop_left' (length_le 2 _)
      have small : value % 0x80000000 < 0x100 ^ 4 :=
        Nat.lt_of_lt_of_le (Nat.mod_lt _ (by decide)) (by decide)
      show Entry.forward _ (ofLe ((le 2 answer.ulModuleOrdinal ++ _).take 2))
        (ofLe ((le 2 answer.ulModuleOrdinal ++ _).drop 2)) = _
      rw [first, second, ofLe_le, ofLe_le_of_lt small]
      rfl
    rw [read, same] at added
    rw [same_modules] at asked
    by_cases number : flagged ulFnOrdinal
    · rw [if_pos number] at named
      obtain ⟨rfl, rfl⟩ := Prod.mk.inj (Except.ok.inj named)
      refine ⟨ds, .forward fwdOrdinal answer.ulModuleOrdinal (ulFnOrdinal % 0x80000000), held, ?_,
        rfl, ?_⟩
      · rw [target, converted, Except.bind, asked, Except.bind, if_pos number]
      · rw [added, if_pos number, Entry.cut, Nat.mod_mod, ite_self]
        rfl
    · rw [if_neg number, same_functions] at named
      refine ⟨ds, .forward 0 answer.ulModuleOrdinal value, held, ?_, rfl, added⟩
      rw [target, converted, Except.bind, asked, Except.bind, if_neg number, named]
      rfl

/-- Ordinals that ascend, from behind the last one to 65535. -/
def Ascending : ℕ → List (Op × Env) → Prop
  | _, [] => True
  | last, (op, _) :: ops => last < op.ulOrdinal ∧ op.ulOrdinal ≤ 65535 ∧ Ascending op.ulOrdinal ops

theorem run_holds {c : Setting} {ops : List (Op × Env)} {st last : Tables} {bs : List Bundle}
    (holds : Holds st bs) (ascending : Ascending st.ulLastOrdinal ops)
    (done : run c ops st = .ok last) :
    ∃ cs, Holds last cs ∧
      allEntries 1 cs = allEntries 1 bs ++ (targets c ops st).map fun e => (e.1, e.2.cut) := by
  induction ops generalizing st bs with
  | nil =>
    obtain rfl := Except.ok.inj done
    exact ⟨bs, holds, by simp [targets]⟩
  | cons head ops ih =>
    obtain ⟨op, env⟩ := head
    obtain ⟨next, stepped, done⟩ := ok_of_bind done
    obtain ⟨ascends, small, ascending⟩ := ascending
    obtain ⟨cs, entry, held, meant, ordinal, added⟩ := step_holds c op holds ascends small stepped
    obtain ⟨ds, held, rest⟩ := ih held (by rwa [ordinal]) done
    refine ⟨ds, held, ?_⟩
    rw [rest, added, targets, meant, stepped]
    simp

theorem addLastEntry_holds {st last : Tables} {bs : List Bundle} {room : Bool} (holds : Holds st bs)
    (done : addLastEntry room st = .ok last) :
    last.entries = some (allEntries 1 bs) ∧ last.bundles.overrun = false := by
  unfold addLastEntry at done
  split at done
  · cases done
  · rename_i bundles grown
    obtain rfl := Except.ok.inj done
    obtain ⟨table, free, -⟩ := holds.table.allocateMore (by omega) (by omega) grown
    have closed := table.put (l := [0]) free
    refine ⟨?_, closed.kept⟩
    rw [Tables.entries]
    refine (congrArg _ closed.holds).trans ?_
    exact decode_allBytes holds.ok 1 (by rw [holds.table.length]; exact Nat.lt_succ_self _)

/-- The module of a forwarder is one of the first 65535 of the table, and its name does not
lie behind the first 2 GB. -/
def OpFits (c : Setting) (env : Env) (st : Tables) : Op → Prop
  | .entry _ _ => True
  | .forwarder _ pszDllName pszFnNameOrOrd =>
    (∀ r, forwarderModule c.opt c.signed env st.modules pszDllName = .ok r →
      r.1.ulModuleOrdinal < 0x10000) ∧
    (pszFnNameOrOrd.val ≠ [] → nextName st.functions < 0x80000000)

def RunFits (c : Setting) : List (Op × Env) → Tables → Prop
  | [], _ => True
  | (op, env) :: ops, st =>
    OpFits c env st op ∧ ∀ next, step c env st op = .ok next → RunFits c ops next

/-- A target begins with a digit. -/
def digitFirst : List UInt8 → Bool
  | [] => false
  | ch :: _ => isDigit ch

theorem scanDigits_eq (psz : List UInt8) (rounds ulFnOrdinal : ℕ) :
    scanDigits psz (rounds + 1) ulFnOrdinal =
      if digitFirst psz then none else some ulFnOrdinal := by
  cases psz with
  | nil => rfl
  | cons ch psz =>
    rw [digitFirst]
    by_cases digit : isDigit ch = true
    · rw [if_pos digit]
      induction rounds generalizing ulFnOrdinal with
      | zero => rw [scanDigits, if_pos digit, scanDigits]
      | succ rounds ih => rw [scanDigits, if_pos digit, ih]
    · rw [scanDigits, if_neg digit, if_neg digit]

theorem forwarderOrdinal_eq (psz : List UInt8) :
    forwarderOrdinal psz =
      if digitFirst psz then .error .hangs
      else .ok (if psz = [] then 0x80000000 else 0) := by
  rw [forwarderOrdinal, scanDigits_eq]
  by_cases digit : digitFirst psz = true
  · rw [if_pos digit, if_pos digit]
  · rw [if_neg digit, if_neg digit]
    rfl

theorem opFits_iff {c : Setting} {env : Env} {st : Tables} {op : Op} {entry : Entry}
    (meant : target c env st op = .ok entry) : OpFits c env st op ↔ entry.Fits := by
  cases op with
  | entry ulOrdinal ulRVA =>
    rw [target] at meant
    cases asked : queryObjectAndOffset c.pe ulRVA with
    | error e => rw [asked] at meant; cases meant
    | ok r =>
      rw [asked] at meant
      obtain rfl := Except.ok.inj meant
      exact iff_of_true trivial trivial
  | forwarder ulOrdinal pszDllName pszFnNameOrOrd =>
    obtain ⟨ulFnOrdinal, converted, meant⟩ := ok_of_bind meant
    obtain ⟨r, asked, meant⟩ := ok_of_bind meant
    rw [forwarderOrdinal_eq] at converted
    split at converted
    · cases converted
    · obtain rfl := Except.ok.inj converted
      by_cases empty : pszFnNameOrOrd.val = []
      · rw [if_pos empty, if_pos (by decide)] at meant
        obtain rfl := Except.ok.inj meant
        simp only [OpFits, Entry.Fits, asked, Except.ok.injEq, forall_eq', empty, ne_eq,
          not_true_eq_false, false_implies, and_true]
        exact (and_iff_left (by decide)).symm
      · rw [if_neg empty, if_neg (by decide)] at meant
        cases named : addImportFunctionName env.room st.functions pszFnNameOrOrd with
        | error e => rw [named] at meant; cases meant
        | ok s =>
          rw [named] at meant
          obtain rfl := Except.ok.inj meant
          have at_name := addImportFunctionName_fst named
          simp only [OpFits, Entry.Fits, asked, Except.ok.injEq, forall_eq', empty, ne_eq,
            not_false_eq_true, true_implies, at_name]

theorem targets_fit {c : Setting} {ops : List (Op × Env)} {st last : Tables} {bs : List Bundle}
    (holds : Holds st bs) (ascending : Ascending st.ulLastOrdinal ops)
    (done : run c ops st = .ok last) :
    (∀ e ∈ targets c ops st, e.2.Fits) ↔ RunFits c ops st := by
  induction ops generalizing st bs with
  | nil => simp [targets, RunFits]
  | cons head ops ih =>
    obtain ⟨op, env⟩ := head
    obtain ⟨next, stepped, done⟩ := ok_of_bind done
    obtain ⟨ascends, small, ascending⟩ := ascending
    obtain ⟨cs, entry, held, meant, ordinal, -⟩ := step_holds c op holds ascends small stepped
    have rest := ih held (by rwa [ordinal]) done
    rw [targets, meant, stepped]
    simp only [List.forall_mem_cons, RunFits, stepped, Except.ok.injEq, forall_eq', rest,
      opFits_iff meant]

theorem lossless_iff_fit {c : Setting} {ops : List (Op × Env)} {room : Bool} {init st last : Tables}
    (empty : Holds init []) (start : init.ulLastOrdinal = 0) (ascending : Ascending 0 ops)
    (added : run c ops init = .ok st) (closed : addLastEntry room st = .ok last) :
    (last.entries = some (targets c ops init) ∧ last.bundles.overrun = false) ↔
      ∀ e ∈ targets c ops init, e.2.Fits := by
  obtain ⟨cs, holds, all⟩ := run_holds empty (by rwa [start]) added
  obtain ⟨read, kept⟩ := addLastEntry_holds holds closed
  rw [read, all]
  simp only [allEntries, List.nil_append, Option.some.injEq, kept, and_true]
  constructor
  · intro same e he
    have at_e := List.map_inj_left.1 (same.trans (List.map_id _).symm) e he
    exact (Entry.cut_eq_iff e.2).1 (congrArg Prod.snd at_e)
  · intro fit
    refine (List.map_inj_left.2 fun e he => ?_).trans (List.map_id _)
    rw [(Entry.cut_eq_iff e.2).2 (fit e he)]
    rfl

/-- Two entries of an object and a forwarder behind a gap. -/
def sampleOps : List (Op × Env) :=
  [(.entry 1 0x1010, ⟨true, true⟩), (.entry 2 0x1020, ⟨true, true⟩),
    (.forwarder 300 ⟨ascii "NTDLL", by decide⟩ ⟨ascii "RtlExitUserThread", by decide⟩, ⟨true, true⟩)]

def sampleSetting : Setting where
  opt := {}
  signed := true
  debug := false
  pe := ⟨false, [⟨0, 0x400, 0x400, 0, 0, false, false, 0, 0⟩,
    ⟨0x1000, 0x200, 0x200, 0, 0, false, false, 0x400, 0⟩], by decide⟩

/-- No import yet. -/
def noNames : NameTable := ⟨Block.none fun _ => 0, 0⟩

end Odin32.LxEntries
