import Odin32.PageMap

/-! # VirtualAlloc

Committing memory outside of memory mapped files. A range that cannot be committed as a whole is
committed region by region, and that loop reports success however it ends. -/

set_option autoImplicit false

namespace Odin32.VirtualAlloc
open Odin32.Word Odin32.PageMap

def memCommit : ℕ := 0x1000
def memReserve : ℕ := 0x2000
def memTopDown : ℕ := 0x100000

def pageNoaccess : ℕ := 0x01
def pageReadonly : ℕ := 0x02
def pageReadwrite : ℕ := 0x04
def pageWritecopy : ℕ := 0x08
def pageExecute : ℕ := 0x10
def pageExecuteRead : ℕ := 0x20
def pageExecuteReadwrite : ℕ := 0x40
def pageExecuteWritecopy : ℕ := 0x80
def pageGuard : ℕ := 0x100

def oslibErrorInvalidAddress : ℕ := 1
def oslibErrorAccessDenied : ℕ := 2

/-- The part of page flags that is about access. -/
def access (flags : ℕ) : ℕ := flags &&& (pagRead ||| pagWrite ||| pagExecute)

def translateWinPageAttr (dwProtect : ℕ) : ℕ :=
  let add := fun bit attr => if dwProtect &&& bit ≠ 0 then attr else 0
  add pageReadonly pagRead ||| add pageReadwrite (pagRead ||| pagWrite) |||
  add pageWritecopy (pagRead ||| pagWrite) ||| add pageExecute (pagExecute ||| pagRead) |||
  add pageExecuteRead (pagExecute ||| pagRead) |||
  add pageExecuteReadwrite (pagExecute ||| pagWrite ||| pagRead) |||
  add pageExecuteWritecopy (pagExecute ||| pagWrite ||| pagRead) |||
  add pageGuard pagGuard ||| add pageNoaccess pagRead

/-- The flags for OS/2. -/
def allocFlags (fdwAllocationType fdwProtect : ℕ) : ℕ :=
  let flag := translateWinPageAttr fdwProtect
  let flag := if fdwAllocationType &&& memCommit ≠ 0 then flag ||| pagCommit else flag
  let flag := if fdwAllocationType &&& memReserve ≠ 0 then flag ||| (pagRead ||| pagWrite) else flag
  if access flag = 0 then flag ||| (pagRead ||| pagWrite) else flag

/-- The answers of the system about one region. -/
structure RegionAnswers where
  /-- `DosQueryMem` -/
  queryMem : ℕ
  /-- Where `DosQueryMem` ends a run of pages with the same attributes, at the latest. -/
  limit : ℕ
  /-- `DosSetMem` -/
  setMem : ℕ
  /-- `DosQueryMem` and `DosSetMem` in `VirtualProtect`. -/
  protectQuery : ℕ
  protectSet : ℕ

structure Os where
  /-- The address that `OSLibDosAllocMem` gives. -/
  alloc : Option ℕ
  /-- `DosSetMem` of the whole range. -/
  setMem : ℕ
  regions : ℕ → RegionAnswers

/-- The pages from `p` on that are like `first`. -/
def sameRun (first : Page) (pages : Pages) : ℕ → ℕ → ℕ
  | _, 0 => 0
  | p, n + 1 => if pages p = first then sameRun first pages (p + 1) n + 1 else 0

/-- The length of the range that `DosQueryMem` gives for a range of `n` pages. -/
def queryRange (pages : Pages) (limit p n : ℕ) : ℕ := min (sameRun (pages p) pages p n) (limit + 1)

/-- `VirtualProtect` of whole pages. -/
def virtualProtect (fdwNewProtect : ℕ) (answers : RegionAnswers) (p n : ℕ) (pages : Pages) :
    Bool × Pages :=
  if answers.protectQuery ≠ 0 then (false, pages)
  else if translateWinPageAttr fdwNewProtect = 0 then (true, pages)
  else if answers.protectSet ≠ 0 then (false, pages)
  else (true, setMem p n (translateWinPageAttr fdwNewProtect) pages)

/-- The loop over the regions of a range of `n` pages, and whether it comes to its end: it returns
NULL from inside where `VirtualProtect` fails, and breaks at other failures. -/
def commitRegions (fdwProtect flag : ℕ) (answers : ℕ → RegionAnswers) :
    ℕ → ℕ → ℕ → ℕ → Pages → Bool × Pages
  | 0, _, _, _, pages => (true, pages)
  | fuel + 1, i, p, n, pages =>
    if n = 0 then (true, pages)
    else if (answers i).queryMem ≠ 0 then (true, pages)
    else
      let size := queryRange pages (answers i).limit p n
      match pages p with
      | .committed os2flags =>
        if access flag ≠ access os2flags then
          match virtualProtect fdwProtect (answers i) p size pages with
          | (false, pages) => (false, pages)
          | (true, pages) =>
            commitRegions fdwProtect flag answers fuel (i + 1) (p + size) (n - size) pages
        else commitRegions fdwProtect flag answers fuel (i + 1) (p + size) (n - size) pages
      | _ =>
        if (answers i).setMem ≠ 0 then (true, pages)
        else commitRegions fdwProtect flag answers fuel (i + 1) (p + size) (n - size)
          (setMem p size flag pages)

/-- A range that is one region: it may be committed already. -/
def commitRegion (fdwProtect flag : ℕ) (answers : RegionAnswers) (p n : ℕ) (pages : Pages) :
    Bool × Pages :=
  if answers.queryMem ≠ 0 then (false, pages)
  else
    match pages p with
    | .committed os2flags =>
      if n ≤ queryRange pages answers.limit p n then
        if access flag ≠ access os2flags then virtualProtect fdwProtect answers p n pages
        else (true, pages)
      else (false, pages)
    | _ => (false, pages)

def toPointer (address : ℕ) : Option ℕ := if address = 0 then none else some address

/-- The pages of the request. -/
def nrPages (lpvAddress cbSize : ℕ) : ℕ := pagesFor (cbSize + lpvAddress % 0x1000)

/-- `OSLibDosAllocMem`, with the flags for the new pages. -/
def allocMem (os : Os) (n flag : ℕ) (pages : Pages) : Option ℕ × Pages :=
  match os.alloc with
  | none => (none, pages)
  | some address =>
    if flag &&& pagCommit ≠ 0 then (toPointer address, setMem (address / 0x1000) n flag pages)
    else (toPointer address, fun q =>
      if address / 0x1000 ≤ q ∧ q < address / 0x1000 + n then .reserved else pages q)

/-- The part that commits pages. -/
def commit (os : Os) (p n fdwProtect flag : ℕ) (pages : Pages) : Option ℕ × Pages :=
  if os.setMem = oslibErrorAccessDenied ∧ 1 < n then
    match commitRegions fdwProtect flag os.regions n 0 p n pages with
    | (false, pages) => (none, pages)
    -- `rc = 0; //success`
    | (true, pages) => (toPointer (0x1000 * p), pages)
  else if os.setMem = oslibErrorInvalidAddress then allocMem os n flag pages
  else if os.setMem ≠ 0 then
    match commitRegion fdwProtect flag (os.regions 0) p n pages with
    | (false, pages) => (none, pages)
    | (true, pages) => (toPointer (0x1000 * p), pages)
  else (toPointer (0x1000 * p), setMem p n flag pages)

/-- `VirtualAlloc` where no view of a memory mapped file encloses the range. -/
def virtualAlloc (os : Os) (lpvAddress cbSize fdwAllocationType fdwProtect : ℕ) (pages : Pages) :
    Option ℕ × Pages :=
  if 0x7fc00000 < cbSize then (none, pages)
  else if fdwAllocationType &&& (memCommit ||| memReserve) = 0 ∨
      fdwAllocationType &&& (0xFFFFFFFF ^^^ (memCommit ||| memReserve ||| memTopDown)) ≠ 0 then
    (none, pages)
  else
    let n := nrPages lpvAddress cbSize
    let flag := allocFlags fdwAllocationType fdwProtect
    let p := lpvAddress / 0x1000
    if p ≠ 0 ∧ fdwAllocationType &&& memReserve ≠ 0 then allocMem os n flag pages
    else if fdwAllocationType &&& memCommit ≠ 0 then commit os p n fdwProtect flag pages
    else allocMem os n flag pages

/-! ## Committed pages -/

/-- The page is committed, with the access that was asked for where the protection names one. -/
def Granted (fdwProtect flag : ℕ) (page : Page) : Prop :=
  ∃ flags, page = .committed flags ∧
    (access (translateWinPageAttr fdwProtect) = 0 ∨ access flags = access flag)

/-- All pages of a range are. -/
def AllGranted (fdwProtect flag : ℕ) (pages : Pages) (p n : ℕ) : Prop :=
  ∀ q, p ≤ q → q < p + n → Granted fdwProtect flag (pages q)

/-- `VirtualProtect` fails on a region. -/
def ProtectFails (fdwProtect : ℕ) (answers : RegionAnswers) : Prop :=
  answers.protectQuery ≠ 0 ∨ translateWinPageAttr fdwProtect ≠ 0 ∧ answers.protectSet ≠ 0

/-- The regions from `p` on are dealt with: no region fails to be queried, unless all pages that
are left are as wanted, and none fails to be committed, before `VirtualProtect` fails on one. -/
def RegionsGood (fdwProtect flag : ℕ) (answers : ℕ → RegionAnswers) (pages : Pages) :
    ℕ → ℕ → ℕ → ℕ → Prop
  | 0, _, _, _ => True
  | fuel + 1, i, p, n =>
    if n = 0 then True
    else if (answers i).queryMem ≠ 0 then AllGranted fdwProtect flag pages p n
    else
      let size := queryRange pages (answers i).limit p n
      match pages p with
      | .committed os2flags =>
        (access flag ≠ access os2flags ∧ ProtectFails fdwProtect (answers i)) ∨
          RegionsGood fdwProtect flag answers pages fuel (i + 1) (p + size) (n - size)
      | _ => (answers i).setMem = 0 ∧
          RegionsGood fdwProtect flag answers pages fuel (i + 1) (p + size) (n - size)

theorem sameRun_le (first : Page) (pages : Pages) (p n : ℕ) : sameRun first pages p n ≤ n := by
  induction n generalizing p with
  | zero => exact Nat.le_refl 0
  | succ n ih =>
    rw [sameRun]
    split
    · exact Nat.succ_le_succ (ih (p + 1))
    · exact Nat.zero_le _

theorem sameRun_same {first : Page} {pages : Pages} {p n q : ℕ} (above : p ≤ q)
    (below : q < p + sameRun first pages p n) : pages q = first := by
  induction n generalizing p with
  | zero =>
    rw [sameRun] at below
    omega
  | succ n ih =>
    rw [sameRun] at below
    split at below
    · rename_i here
      by_cases same : q = p
      · exact same ▸ here
      · exact @ih (p + 1) (by omega) (by omega)
    · omega

theorem sameRun_congr {first : Page} {pages pages' : Pages} {p n : ℕ}
    (agree : ∀ q, p ≤ q → pages' q = pages q) :
    sameRun first pages' p n = sameRun first pages p n := by
  induction n generalizing p with
  | zero => rfl
  | succ n ih =>
    rw [sameRun, sameRun, agree p (Nat.le_refl p), ih fun q above => agree q (by omega)]

theorem queryRange_pos (pages : Pages) (limit p : ℕ) {n : ℕ} (pos : 0 < n) :
    0 < queryRange pages limit p n := by
  obtain ⟨m, rfl⟩ := Nat.exists_eq_succ_of_ne_zero (Nat.pos_iff_ne_zero.1 pos)
  rw [queryRange, sameRun, if_pos rfl]
  omega

theorem queryRange_le (pages : Pages) (limit p n : ℕ) : queryRange pages limit p n ≤ n :=
  Nat.le_trans (Nat.min_le_left _ _) (sameRun_le _ _ _ _)

theorem queryRange_same {pages : Pages} {limit p n q : ℕ} (above : p ≤ q)
    (below : q < p + queryRange pages limit p n) : pages q = pages p := by
  refine @sameRun_same (pages p) pages p n q above ?_
  unfold queryRange at below
  omega

theorem queryRange_congr {pages pages' : Pages} {limit p n : ℕ}
    (agree : ∀ q, p ≤ q → pages' q = pages q) :
    queryRange pages' limit p n = queryRange pages limit p n := by
  rw [queryRange, queryRange, agree p (Nat.le_refl p), sameRun_congr agree]

theorem virtualProtect_eq (fdwProtect : ℕ) (answers : RegionAnswers) (p n : ℕ) (pages : Pages) :
    ProtectFails fdwProtect answers ∧
      virtualProtect fdwProtect answers p n pages = (false, pages) ∨
    ¬ ProtectFails fdwProtect answers ∧ virtualProtect fdwProtect answers p n pages =
      (true, if translateWinPageAttr fdwProtect = 0 then pages
        else setMem p n (translateWinPageAttr fdwProtect) pages) := by
  unfold virtualProtect ProtectFails
  by_cases query : answers.protectQuery = 0
  · by_cases nothing : translateWinPageAttr fdwProtect = 0
    · simp [query, nothing]
    · by_cases set : answers.protectSet = 0 <;> simp [query, nothing, set]
  · simp [query]

theorem protected_granted {fdwProtect flag p n q os2flags : ℕ} {pages : Pages}
    (plain : access (translateWinPageAttr fdwProtect) ≠ 0 →
      access (translateWinPageAttr fdwProtect) = access flag)
    (committed : pages q = .committed os2flags) (above : p ≤ q) (below : q < p + n) :
    Granted fdwProtect flag ((if translateWinPageAttr fdwProtect = 0 then pages
      else setMem p n (translateWinPageAttr fdwProtect) pages) q) := by
  split
  · rename_i nothing
    exact ⟨os2flags, committed, Or.inl (by rw [nothing]; rfl)⟩
  · exact ⟨_, setMem_inside _ _ above below, Classical.or_iff_not_imp_left.2 plain⟩

/-- One region: the loop breaks, and what counts are the pages as they are; or it returns NULL; or
the region is dealt with and the loop goes on behind it. -/
theorem commitRegions_step {fdwProtect flag : ℕ} (answers : ℕ → RegionAnswers)
    {pages pages' : Pages} (plain : access (translateWinPageAttr fdwProtect) ≠ 0 →
      access (translateWinPageAttr fdwProtect) = access flag)
    (fuel i : ℕ) {p n : ℕ} (agree : ∀ q, p ≤ q → pages' q = pages q) (pos : 0 < n) :
    (commitRegions fdwProtect flag answers (fuel + 1) i p n pages' = (true, pages') ∧
      (RegionsGood fdwProtect flag answers pages (fuel + 1) i p n ↔
        AllGranted fdwProtect flag pages' p n)) ∨
    (commitRegions fdwProtect flag answers (fuel + 1) i p n pages' = (false, pages') ∧
      RegionsGood fdwProtect flag answers pages (fuel + 1) i p n) ∨
    ∃ size mid, 0 < size ∧ size ≤ n ∧
      commitRegions fdwProtect flag answers (fuel + 1) i p n pages' =
        commitRegions fdwProtect flag answers fuel (i + 1) (p + size) (n - size) mid ∧
      (RegionsGood fdwProtect flag answers pages (fuel + 1) i p n ↔
        RegionsGood fdwProtect flag answers pages fuel (i + 1) (p + size) (n - size)) ∧
      (∀ q, p ≤ q → q < p + size → Granted fdwProtect flag (mid q)) ∧
      ∀ q, ¬ (p ≤ q ∧ q < p + size) → mid q = pages' q := by
  have here := agree p (Nat.le_refl p)
  have same := @queryRange_congr pages pages' (answers i).limit p n agree
  have positive := queryRange_pos pages' (answers i).limit p pos
  have inside := queryRange_le pages' (answers i).limit p n
  have run : ∀ q, p ≤ q → q < p + queryRange pages' (answers i).limit p n →
      pages' q = pages' p := fun q above below => queryRange_same above below
  rw [commitRegions, RegionsGood]
  rw [if_neg (Nat.pos_iff_ne_zero.1 pos), if_neg (Nat.pos_iff_ne_zero.1 pos), ← same, ← here]
  by_cases query : (answers i).queryMem ≠ 0
  · rw [if_pos query, if_pos query]
    refine Or.inl ⟨rfl, forall_congr' fun q => imp_congr_right fun above => ?_⟩
    rw [agree q above]
  rw [if_neg query, if_neg query]
  cases state : pages' p with
  | committed os2flags =>
    simp only
    by_cases differs : access flag ≠ access os2flags
    · rw [if_pos differs]
      rcases virtualProtect_eq fdwProtect (answers i) p
        (queryRange pages' (answers i).limit p n) pages' with ⟨fails, result⟩ | ⟨works, result⟩
      · rw [result]
        exact Or.inr (Or.inl ⟨rfl, Or.inl ⟨differs, fails⟩⟩)
      · rw [result]
        refine Or.inr (Or.inr ⟨_, _, positive, inside, rfl, ?_, fun q above below => ?_,
          fun q out => ?_⟩)
        · exact or_iff_right fun both => works both.2
        · exact protected_granted plain ((run q above below).trans state) above below
        · split
          · rfl
          · exact setMem_outside _ _ out
    · rw [if_neg differs]
      refine Or.inr (Or.inr ⟨_, _, positive, inside, rfl, ?_, fun q above below => ?_,
        fun q out => rfl⟩)
      · exact or_iff_right fun both => differs both.1
      · exact ⟨os2flags, (run q above below).trans state, Or.inr (not_not.1 differs).symm⟩
  | free | reserved =>
    simp only
    by_cases refused : (answers i).setMem ≠ 0
    · rw [if_pos refused]
      refine Or.inl ⟨rfl, iff_of_false (fun both => refused both.1) fun all => ?_⟩
      obtain ⟨f, there, -⟩ := all p (Nat.le_refl p) (by omega)
      exact Page.noConfusion (state.symm.trans there)
    · rw [if_neg refused]
      refine Or.inr (Or.inr ⟨_, _, positive, inside, rfl, and_iff_right (not_not.1 refused),
        fun q above below => ?_, fun q out => setMem_outside _ _ out⟩)
      exact ⟨flag, setMem_inside _ _ above below, Or.inr rfl⟩

theorem commitRegions_before {fdwProtect flag : ℕ} (answers : ℕ → RegionAnswers)
    (plain : access (translateWinPageAttr fdwProtect) ≠ 0 →
      access (translateWinPageAttr fdwProtect) = access flag)
    (fuel i : ℕ) {p n q : ℕ} (pages : Pages) (before : q < p) :
    (commitRegions fdwProtect flag answers fuel i p n pages).2 q = pages q := by
  induction fuel generalizing i p n pages with
  | zero => rfl
  | succ fuel ih =>
    by_cases none_ : n = 0
    · rw [commitRegions, if_pos none_]
    rcases commitRegions_step answers plain fuel i (fun q _ => rfl) (Nat.pos_iff_ne_zero.2 none_)
      with ⟨broke, -⟩ | ⟨null, -⟩ | ⟨size, mid, -, -, goes, -, -, frame⟩
    · rw [broke]
    · rw [null]
    · rw [goes, ih (i + 1) mid (by omega)]
      exact frame q fun both => by omega

theorem commitRegions_iff {fdwProtect flag : ℕ} (answers : ℕ → RegionAnswers) {pages : Pages}
    (plain : access (translateWinPageAttr fdwProtect) ≠ 0 →
      access (translateWinPageAttr fdwProtect) = access flag)
    (fuel i : ℕ) {p n : ℕ} {pages' : Pages} (agree : ∀ q, p ≤ q → pages' q = pages q)
    (enough : n ≤ fuel) :
    ((commitRegions fdwProtect flag answers fuel i p n pages').1 = true →
      AllGranted fdwProtect flag (commitRegions fdwProtect flag answers fuel i p n pages').2 p n) ↔
    RegionsGood fdwProtect flag answers pages fuel i p n := by
  induction fuel generalizing i p n pages' with
  | zero => exact iff_of_true (fun _ q above below => absurd below (by omega)) trivial
  | succ fuel ih =>
    by_cases none_ : n = 0
    · rw [RegionsGood, if_pos none_]
      exact iff_of_true (fun _ q above below => absurd below (by omega)) trivial
    rcases commitRegions_step answers plain fuel i agree (Nat.pos_iff_ne_zero.2 none_)
      with ⟨broke, good⟩ | ⟨null, good⟩ | ⟨size, mid, pos, inside, goes, good, granted, frame⟩
    · rw [broke, good]
      exact forall_prop_of_true rfl
    · rw [null]
      exact iff_of_true (fun done => absurd done Bool.false_ne_true) good
    · have rest := @ih (i + 1) (p + size) (n - size) mid
        (fun q above => (frame q (by omega)).trans (agree q (by omega))) (by omega)
      rw [goes, good, ← rest]
      refine imp_congr_right fun _ => ⟨fun all q above below => all q (by omega) (by omega), ?_⟩
      intro all q above below
      by_cases behind : p + size ≤ q
      · exact all q behind (by omega)
      · rw [commitRegions_before answers plain fuel (i + 1) mid (by omega)]
        exact granted q above (by omega)

/-! ## The call -/

theorem access_or (a b : ℕ) : access (a ||| b) = access a ||| access b :=
  Nat.and_or_distrib_right a b _

theorem access_allocFlags {fdwAllocationType fdwProtect : ℕ}
    (commits : fdwAllocationType &&& memCommit ≠ 0)
    (noReserve : fdwAllocationType &&& memReserve = 0)
    (named : access (translateWinPageAttr fdwProtect) ≠ 0) :
    access (translateWinPageAttr fdwProtect) = access (allocFlags fdwAllocationType fdwProtect) := by
  have same : access (translateWinPageAttr fdwProtect ||| pagCommit) =
      access (translateWinPageAttr fdwProtect) := by
    rw [access_or]
    exact Nat.or_zero _
  unfold allocFlags
  simp only [if_pos commits, noReserve, ne_eq, not_true_eq_false, if_false, same]
  rw [if_neg named, same]

theorem allocFlags_commit {fdwAllocationType : ℕ} (fdwProtect : ℕ)
    (commits : fdwAllocationType &&& memCommit ≠ 0) :
    allocFlags fdwAllocationType fdwProtect &&& pagCommit ≠ 0 := by
  have four : pagCommit.testBit 4 = true := by decide
  have bit : (allocFlags fdwAllocationType fdwProtect).testBit 4 = true := by
    unfold allocFlags
    simp only [if_pos commits]
    split <;> split <;> simp [Nat.testBit_or, four]
  intro zero
  have none_ := congrArg (fun n => n.testBit 4) zero
  simp [Nat.testBit_and, bit, four] at none_

/-- A pointer that is returned gives the wanted pages: those from the wanted address on, or where
none was given from the returned one on. -/
def Truthful (lpvAddress cbSize fdwAllocationType fdwProtect : ℕ) (result : Option ℕ × Pages) :
    Prop :=
  ∀ address ∈ result.1, AllGranted fdwProtect (allocFlags fdwAllocationType fdwProtect) result.2
    ((if lpvAddress / 0x1000 = 0 then address else lpvAddress) / 0x1000)
    (nrPages lpvAddress cbSize)

/-- The parameters are taken. -/
def Accepted (cbSize fdwAllocationType : ℕ) : Prop :=
  cbSize ≤ 0x7fc00000 ∧
    fdwAllocationType &&& (0xFFFFFFFF ^^^ (memCommit ||| memReserve ||| memTopDown)) = 0

/-- The system does what a commit of the wanted pages needs: new memory lies where it is wanted,
unless the pages it leaves out are as wanted already, and where the range is not committed as a
whole, its regions are. -/
structure Committable (os : Os) (lpvAddress cbSize fdwAllocationType fdwProtect : ℕ)
    (pages : Pages) : Prop where
  placed : fdwAllocationType &&& memReserve ≠ 0 ∨ os.setMem = oslibErrorInvalidAddress →
    ∀ address ∈ os.alloc, address ≠ 0 → ∀ q, lpvAddress / 0x1000 ≤ q →
      q < lpvAddress / 0x1000 + nrPages lpvAddress cbSize →
        (address / 0x1000 ≤ q ∧ q < address / 0x1000 + nrPages lpvAddress cbSize) ∨
          Granted fdwProtect (allocFlags fdwAllocationType fdwProtect) (pages q)
  regions : fdwAllocationType &&& memReserve = 0 → os.setMem = oslibErrorAccessDenied →
    1 < nrPages lpvAddress cbSize →
      RegionsGood fdwProtect (allocFlags fdwAllocationType fdwProtect) os.regions pages
        (nrPages lpvAddress cbSize) 0 (lpvAddress / 0x1000) (nrPages lpvAddress cbSize)

theorem granted_self (fdwProtect flag : ℕ) : Granted fdwProtect flag (.committed flag) :=
  ⟨flag, rfl, Or.inr rfl⟩

theorem toPointer_eq_some {a address : ℕ} (there : toPointer a = some address) :
    a = address ∧ a ≠ 0 := by
  unfold toPointer at there
  split at there
  · cases there
  · rename_i some_
    exact ⟨Option.some.inj there, some_⟩

theorem allocMem_iff {os : Os} {n flag fdwProtect : ℕ} {pages : Pages}
    (commits : flag &&& pagCommit ≠ 0) (p : ℕ) :
    (∀ address ∈ (allocMem os n flag pages).1,
      AllGranted fdwProtect flag (allocMem os n flag pages).2 p n) ↔
    ∀ address ∈ os.alloc, address ≠ 0 → ∀ q, p ≤ q → q < p + n →
      (address / 0x1000 ≤ q ∧ q < address / 0x1000 + n) ∨ Granted fdwProtect flag (pages q) := by
  unfold allocMem
  cases os.alloc with
  | none => exact iff_of_true (fun _ there => by cases there) fun _ there => by cases there
  | some a =>
    simp only
    rw [if_pos commits]
    constructor
    · intro all address there nonzero q above below
      cases there
      have granted : Granted fdwProtect flag (setMem (a / 0x1000) n flag pages q) :=
        all a (if_neg nonzero) q above below
      by_cases covered : a / 0x1000 ≤ q ∧ q < a / 0x1000 + n
      · exact Or.inl covered
      · rw [setMem_outside _ _ covered] at granted
        exact Or.inr granted
    · intro all address there q above below
      obtain ⟨rfl, nonzero⟩ := toPointer_eq_some there
      by_cases covered : a / 0x1000 ≤ q ∧ q < a / 0x1000 + n
      · simp only
        rw [setMem_inside _ _ covered.1 covered.2]
        exact granted_self fdwProtect flag
      · simp only
        rw [setMem_outside _ _ covered]
        exact (all a rfl nonzero q above below).resolve_left covered

theorem commitRegion_granted {fdwProtect flag : ℕ} {answers : RegionAnswers} {pages : Pages}
    (plain : access (translateWinPageAttr fdwProtect) ≠ 0 →
      access (translateWinPageAttr fdwProtect) = access flag) {p n : ℕ}
    (done : (commitRegion fdwProtect flag answers p n pages).1 = true) :
    AllGranted fdwProtect flag (commitRegion fdwProtect flag answers p n pages).2 p n := by
  unfold commitRegion at done ⊢
  by_cases query : answers.queryMem ≠ 0
  · rw [if_pos query] at done
    exact absurd done Bool.false_ne_true
  rw [if_neg query] at done ⊢
  cases state : pages p with
  | free | reserved =>
    rw [state] at done
    exact absurd done Bool.false_ne_true
  | committed os2flags =>
    rw [state] at done
    simp only at done ⊢
    by_cases whole : n ≤ queryRange pages answers.limit p n
    · rw [if_pos whole] at done ⊢
      have run : ∀ q, p ≤ q → q < p + n → pages q = .committed os2flags := fun q above below =>
        (queryRange_same above (Nat.lt_of_lt_of_le below (Nat.add_le_add_left whole p))).trans state
      by_cases differs : access flag ≠ access os2flags
      · rw [if_pos differs] at done ⊢
        rcases virtualProtect_eq fdwProtect answers p n pages with ⟨-, result⟩ | ⟨-, result⟩
        · rw [result] at done
          exact absurd done Bool.false_ne_true
        · rw [result]
          exact fun q above below => protected_granted plain (run q above below) above below
      · rw [if_neg differs]
        exact fun q above below =>
          ⟨os2flags, run q above below, Or.inr (not_not.1 differs).symm⟩
    · rw [if_neg whole] at done
      exact absurd done Bool.false_ne_true

theorem commit_iff {os : Os} {fdwProtect flag : ℕ} {pages : Pages}
    (commits : flag &&& pagCommit ≠ 0)
    (plain : access (translateWinPageAttr fdwProtect) ≠ 0 →
      access (translateWinPageAttr fdwProtect) = access flag) {p : ℕ} (nonzero : p ≠ 0) (n : ℕ) :
    (∀ address ∈ (commit os p n fdwProtect flag pages).1,
      AllGranted fdwProtect flag (commit os p n fdwProtect flag pages).2 p n) ↔
    (os.setMem = oslibErrorInvalidAddress → ∀ address ∈ os.alloc, address ≠ 0 → ∀ q, p ≤ q →
      q < p + n → (address / 0x1000 ≤ q ∧ q < address / 0x1000 + n) ∨
        Granted fdwProtect flag (pages q)) ∧
    (os.setMem = oslibErrorAccessDenied → 1 < n →
      RegionsGood fdwProtect flag os.regions pages n 0 p n) := by
  have pointer : toPointer (0x1000 * p) = some (0x1000 * p) := if_neg (by omega)
  unfold commit
  by_cases denied : os.setMem = oslibErrorAccessDenied ∧ 1 < n
  · have other : os.setMem ≠ oslibErrorInvalidAddress := by
      rw [denied.1]
      decide
    rw [if_pos denied, and_iff_right fun invalid => absurd invalid other,
      forall_prop_of_true denied.1, forall_prop_of_true denied.2,
      ← commitRegions_iff os.regions plain n 0 (fun _ _ => rfl) (Nat.le_refl n)]
    rcases commitRegions fdwProtect flag os.regions n 0 p n pages with ⟨_ | _, after⟩
    · exact iff_of_true (fun _ there => by cases there) fun done => absurd done Bool.false_ne_true
    · simp only [pointer]
      refine ⟨fun all _ => all _ rfl, fun good address there => ?_⟩
      cases there
      exact good trivial
  rw [if_neg denied, and_iff_left fun refused more => absurd ⟨refused, more⟩ denied]
  by_cases invalid : os.setMem = oslibErrorInvalidAddress
  · rw [if_pos invalid, forall_prop_of_true invalid]
    exact allocMem_iff commits p
  rw [if_neg invalid]
  refine iff_of_true (fun address there => ?_) fun no => absurd no invalid
  by_cases refused : os.setMem ≠ 0
  · rw [if_pos refused] at there ⊢
    have single := @commitRegion_granted fdwProtect flag (os.regions 0) pages plain p n
    rcases made : commitRegion fdwProtect flag (os.regions 0) p n pages with ⟨_ | _, after⟩
    · rw [made] at there
      cases there
    · rw [made] at single
      exact single rfl
  · rw [if_neg refused]
    intro q above below
    simp only
    rw [setMem_inside _ _ above below]
    exact granted_self fdwProtect flag

theorem allocMem_granted {os : Os} {n flag : ℕ} {pages : Pages}
    (commits : flag &&& pagCommit ≠ 0) (fdwProtect : ℕ) : ∀ address ∈ (allocMem os n flag pages).1,
      AllGranted fdwProtect flag (allocMem os n flag pages).2 (address / 0x1000) n := by
  unfold allocMem
  cases os.alloc with
  | none => exact fun _ there => by cases there
  | some a =>
    simp only
    rw [if_pos commits]
    intro address there q above below
    obtain ⟨rfl, -⟩ := toPointer_eq_some there
    simp only
    rw [setMem_inside _ _ above below]
    exact granted_self fdwProtect flag

theorem commit_zero {os : Os} {fdwProtect flag : ℕ} {pages : Pages}
    (commits : flag &&& pagCommit ≠ 0) (n : ℕ) :
    ∀ address ∈ (commit os 0 n fdwProtect flag pages).1,
      AllGranted fdwProtect flag (commit os 0 n fdwProtect flag pages).2 (address / 0x1000) n := by
  unfold commit
  split
  · rcases commitRegions fdwProtect flag os.regions n 0 0 n pages with ⟨_ | _, after⟩ <;>
      exact fun _ there => by cases there
  split
  · exact allocMem_granted commits fdwProtect
  split
  · rcases commitRegion fdwProtect flag (os.regions 0) 0 n pages with ⟨_ | _, after⟩ <;>
      exact fun _ there => by cases there
  · exact fun _ there => by cases there

/-- A committed page and a reserved one behind it. -/
def samplePages : Pages := fun q =>
  if q = 0x500 then .committed (pagRead ||| pagWrite) else if q = 0x501 then .reserved else .free

/-- A system that does not commit the two pages at once; the last value is its answer for the
second page. -/
def sampleOs (rc : ℕ) : Os := ⟨none, oslibErrorAccessDenied, fun _ => ⟨0, 0, rc, 0, 0⟩⟩

end Odin32.VirtualAlloc
