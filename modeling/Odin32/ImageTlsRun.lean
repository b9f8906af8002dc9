import Odin32.ImageTls

/-! # Ownership of implicit thread local storage

The slots of two threads, or two slots of one thread, never hold the same block. With that
the blocks of attached threads are their own, and each event keeps the images' indices
apart exactly when it is not one of those that lose an index or a block. -/

set_option autoImplicit false

namespace Odin32.ImageTls

open Tls

/-- The slot of a thread. -/
def Process.slot (p : Process) (t i : ℕ) : ℕ := (p.teb t).tlsArray i

structure Inv (p : Process) (attached : Attached) : Prop where
  owned : Owned p
  nodup : ∀ image ∈ p.images, ∀ other ∈ p.images, image.hinstance = other.hinstance → image = other
  present : ∀ image ∈ p.images, ∀ t, (image.hinstance, t) ∈ attached → HasBlock p image t
  attached : ∀ pair ∈ attached, pair.2 ∈ p.threads ∧ ∃ image ∈ p.images, image.hinstance = pair.1
  fresh : ∀ a, p.nextBlock ≤ a → p.blocks a = none
  null : p.blocks 0 = none
  pos : 0 < p.nextBlock
  slotBound : ∀ t ∈ p.threads, ∀ i, p.slot t i < p.nextBlock
  slotOwn : ∀ t ∈ p.threads, ∀ u ∈ p.threads, ∀ i j, p.slot t i = p.slot u j → p.slot t i ≠ 0 →
    t = u ∧ i = j

theorem HasBlock.slot_ne {p : Process} {image : Image} {t : ℕ} (null : p.blocks 0 = none)
    (has : HasBlock p image t) (tls : image.tlsAddress.isSome) : p.slot t image.tlsIndex ≠ 0 := by
  obtain ⟨template, here⟩ := Option.isSome_iff_exists.mp tls
  obtain ⟨bytes, block, _⟩ := has template here
  intro zero
  unfold Process.slot at zero
  rw [zero, null] at block
  cases block

theorem Inv.blocks {p : Process} {attached : Attached} (inv : Inv p attached) :
    Blocks p attached := by
  refine ⟨inv.present, ?_⟩
  intro image inside other inside' t u pair pair' tls tls' same
  have nonzero := (inv.present image inside t pair).slot_ne inv.null tls
  obtain ⟨threads, index⟩ := inv.slotOwn t (inv.attached _ pair).1 u (inv.attached _ pair').1
    _ _ same nonzero
  exact ⟨inv.owned.distinct image inside other inside' tls tls' index, threads⟩

theorem Inv.mono {p : Process} {attached : Attached} (inv : Inv p attached) (attached' : Attached)
    (fewer : ∀ pair ∈ attached', pair ∈ attached) : Inv p attached' := by
  constructor
  · exact inv.owned
  · exact inv.nodup
  · exact fun image inside t pair => inv.present image inside t (fewer _ pair)
  · exact fun pair inside => inv.attached pair (fewer _ inside)
  · exact inv.fresh
  · exact inv.null
  · exact inv.pos
  · exact inv.slotBound
  · exact inv.slotOwn

/-! ## Slots -/

theorem slot_setTeb (p : Process) (t u i : ℕ) (teb : Teb) :
    (p.setTeb t teb).slot u i = if u = t then teb.tlsArray i else p.slot u i := by
  unfold Process.slot Process.setTeb
  simp only
  split <;> rfl

theorem tlsArray_setSlot (teb : Teb) (index value i : ℕ) :
    (teb.setSlot index value).tlsArray i = if i = index then value else teb.tlsArray i := rfl

theorem Inv.clear {p : Process} {attached : Attached} (inv : Inv p attached) (p' : Process)
    (t i : ℕ) (images : p'.images = p.images) (threads : p'.threads = p.threads)
    (blocks : p'.blocks = p.blocks) (next : p'.nextBlock = p.nextBlock)
    (slot : ∀ u j, p'.slot u j = if u = t ∧ j = i then 0 else p.slot u j)
    (free : ∀ image ∈ p.images, image.tlsAddress.isSome → image.tlsIndex ≠ i)
    (bits : ∀ j ≠ i, p.pdb.allocated j = true → p'.pdb.allocated j = true) :
    Inv p' attached := by
  constructor
  · constructor
    · intro image inside tls
      rw [images] at inside
      have old := inv.owned.allocated image inside tls
      exact ⟨old.1, bits _ (free image inside tls) old.2⟩
    · rw [images]
      exact inv.owned.distinct
  · rw [images]
    exact inv.nodup
  · intro image inside u pair template here
    rw [images] at inside
    have away := free image inside (by rw [here]; rfl)
    have same : (p'.teb u).tlsArray image.tlsIndex = (p.teb u).tlsArray image.tlsIndex := by
      have value := slot u image.tlsIndex
      rw [if_neg (fun both => away both.2)] at value
      exact value
    rw [blocks, same]
    exact inv.present image inside u pair template here
  · rw [images, threads]
    exact inv.attached
  · rw [blocks, next]
    exact inv.fresh
  · rw [blocks]
    exact inv.null
  · rw [next]
    exact inv.pos
  · rw [threads, next]
    intro u live j
    rw [slot]
    split
    · exact Nat.lt_of_le_of_lt (Nat.zero_le _) (inv.slotBound u live j)
    · exact inv.slotBound u live j
  · rw [threads]
    intro u live v live' j k same nonzero
    rw [slot] at same nonzero
    split at nonzero
    · exact absurd rfl nonzero
    next here =>
    rw [if_neg here, slot] at same
    split at same
    · exact absurd same nonzero
    · exact inv.slotOwn u live v live' j k same nonzero

/-! ## Attaching -/

theorem attach_images (p : Process) (t : ℕ) (memory : ℕ → Bool) (image : Image) :
    (p.tlsAttachThread t memory image).images = p.images ∧
    (p.tlsAttachThread t memory image).threads = p.threads ∧
    (p.tlsAttachThread t memory image).pdb = p.pdb := by
  unfold Process.tlsAttachThread
  split
  · exact ⟨rfl, rfl, rfl⟩
  split
  · exact ⟨rfl, rfl, rfl⟩
  split <;> exact ⟨rfl, rfl, rfl⟩

theorem attach_eq (p : Process) (t : ℕ) {memory : ℕ → Bool} {image : Image} {template : List ℕ}
    (tls : image.tlsAddress = some template) (index : image.tlsIndex < tlsMinimumAvailable)
    (room : memory image.hinstance = true) :
    (∀ u j, (p.tlsAttachThread t memory image).slot u j =
      if u = t ∧ j = image.tlsIndex then p.nextBlock else p.slot u j) ∧
    (∀ a, (p.tlsAttachThread t memory image).blocks a =
      if a = p.nextBlock then some (image.tlsBlock template) else p.blocks a) ∧
    (p.tlsAttachThread t memory image).nextBlock = p.nextBlock + 1 := by
  unfold Process.tlsAttachThread
  simp only [tls]
  rw [if_neg (by omega), if_pos room]
  refine ⟨?_, fun _ => rfl, rfl⟩
  intro u j
  unfold Tls.tlsSetValue
  rw [if_neg (by omega), slot_setTeb]
  by_cases thread : u = t
  · subst thread
    rw [if_pos rfl]
    simp only [tlsArray_setSlot, true_and]
    rfl
  · rw [if_neg thread, if_neg (fun both => thread both.1)]
    rfl

theorem attach_inv {p : Process} {attached : Attached} (inv : Inv p attached) {t : ℕ}
    (live : t ∈ p.threads) {memory : ℕ → Bool} {image : Image} (inside : image ∈ p.images)
    (room : image.tlsAddress.isSome → memory image.hinstance = true) :
    Inv (p.tlsAttachThread t memory image) (insert (image.hinstance, t) attached) := by
  have pairs : ∀ pair ∈ insert (image.hinstance, t) attached, pair.2 ∈ p.threads ∧
      ∃ image ∈ p.images, image.hinstance = pair.1 := by
    intro pair member
    rcases Set.mem_insert_iff.mp member with rfl | old
    · exact ⟨live, image, inside, rfl⟩
    · exact inv.attached pair old
  rcases tls : image.tlsAddress with _ | template
  · have same : p.tlsAttachThread t memory image = p := by
      unfold Process.tlsAttachThread
      rw [tls]
    rw [same]
    refine ⟨inv.owned, inv.nodup, ?_, pairs, inv.fresh, inv.null, inv.pos, inv.slotBound,
      inv.slotOwn⟩
    intro other member u pair
    rcases Set.mem_insert_iff.mp pair with new | old
    · obtain ⟨id, rfl⟩ := Prod.mk.inj new
      rw [inv.nodup other member image inside id]
      intro template here
      rw [tls] at here
      cases here
    · exact inv.present other member u old
  · have some_ : image.tlsAddress.isSome := by rw [tls]; rfl
    have own := inv.owned.allocated image inside some_
    obtain ⟨slot, blocks, next⟩ := attach_eq p t tls own.1 (room some_)
    obtain ⟨images, threads, pdb⟩ := attach_images p t memory image
    have bound := inv.slotBound t live image.tlsIndex
    constructor
    · exact ⟨by rw [images, pdb]; exact inv.owned.allocated, by rw [images]; exact inv.owned.distinct⟩
    · rw [images]
      exact inv.nodup
    · intro other member u pair template' here
      rw [images] at member
      have value := slot u other.tlsIndex
      unfold Process.slot at value
      rw [value, blocks]
      by_cases mine : u = t ∧ other.tlsIndex = image.tlsIndex
      · have same := inv.owned.distinct other member image inside (by rw [here]; rfl) some_ mine.2
        subst same
        rw [tls] at here
        cases here
        rw [if_pos mine]
        simp [Image.tlsBlock, Image.tlsTotalSize]
      · rw [if_neg mine]
        have old : (other.hinstance, u) ∈ attached := by
          rcases Set.mem_insert_iff.mp pair with new | old
          · obtain ⟨id, rfl⟩ := Prod.mk.inj new
            exact absurd ⟨rfl, by rw [inv.nodup other member image inside id]⟩ mine
          · exact old
        have present := inv.present other member u old template' here
        obtain ⟨bytes, block, length⟩ := present
        refine ⟨bytes, ?_, length⟩
        have different : (p.teb u).tlsArray other.tlsIndex ≠ p.nextBlock := by
          have below := inv.slotBound u (inv.attached _ old).1 other.tlsIndex
          unfold Process.slot at below
          omega
        rw [if_neg different]
        exact block
    · rw [images, threads]
      exact pairs
    · intro a above
      rw [next] at above
      rw [blocks, if_neg (by omega)]
      exact inv.fresh a (by omega)
    · rw [blocks, if_neg (by omega)]
      exact inv.null
    · rw [next]
      exact Nat.succ_pos _
    · rw [threads, next]
      intro u live' j
      rw [slot]
      split
      · omega
      · have below := inv.slotBound u live' j
        omega
    · rw [threads]
      intro u live' v live'' j k same nonzero
      rw [slot, slot] at same
      rw [slot] at nonzero
      have belowU := inv.slotBound u live' j
      have belowV := inv.slotBound v live'' k
      split at same
      · next here =>
        split at same
        · next here' => exact ⟨here.1.trans here'.1.symm, here.2.trans here'.2.symm⟩
        · omega
      · next here =>
        rw [if_neg here] at nonzero
        split at same
        · omega
        · exact inv.slotOwn u live' v live'' j k same nonzero

/-! ## Detaching -/

theorem detach_images (p : Process) (t : ℕ) (image : Image) :
    (p.tlsDetachThread t image).images = p.images ∧
    (p.tlsDetachThread t image).threads = p.threads ∧
    (p.tlsDetachThread t image).pdb = p.pdb := by
  unfold Process.tlsDetachThread
  split
  · exact ⟨rfl, rfl, rfl⟩
  · simp only
    split <;> exact ⟨rfl, rfl, rfl⟩

theorem detach_eq {p : Process} {attached : Attached} (inv : Inv p attached) (t : ℕ) {image : Image}
    (tls : image.tlsAddress.isSome) (index : image.tlsIndex < tlsMinimumAvailable) :
    (∀ u j, (p.tlsDetachThread t image).slot u j =
      if u = t ∧ j = image.tlsIndex then 0 else p.slot u j) ∧
    (∀ a, (p.tlsDetachThread t image).blocks a =
      if a = p.slot t image.tlsIndex then none else p.blocks a) ∧
    (p.tlsDetachThread t image).nextBlock = p.nextBlock := by
  obtain ⟨template, tls⟩ := Option.isSome_iff_exists.mp tls
  unfold Process.tlsDetachThread
  simp only [tls]
  have get : tlsGetValue (p.teb t) image.tlsIndex = p.slot t image.tlsIndex := by
    unfold tlsGetValue
    rw [if_neg (by omega)]
    rfl
  have set_ (teb : Teb) : (Tls.tlsSetValue teb image.tlsIndex 0).2 =
      teb.setSlot image.tlsIndex 0 := by
    unfold Tls.tlsSetValue
    rw [if_neg (by omega)]
  rw [get, set_]
  have tebs : (if p.slot t image.tlsIndex ≠ 0 then p.virtualFree (p.slot t image.tlsIndex)
      else p).teb = p.teb := by
    split <;> rfl
  refine ⟨?_, ?_, ?_⟩
  · intro u j
    have others : (if p.slot t image.tlsIndex ≠ 0 then p.virtualFree (p.slot t image.tlsIndex)
        else p).slot u j = p.slot u j := by
      split <;> rfl
    rw [slot_setTeb, tebs, others]
    by_cases thread : u = t
    · subst thread
      simp only [if_true, tlsArray_setSlot, true_and]
      rfl
    · rw [if_neg thread, if_neg (fun both => thread both.1)]
  · intro a
    split
    · rfl
    · next zero =>
      have zero : p.slot t image.tlsIndex = 0 := by simpa using zero
      rw [zero]
      split
      · next null => exact null ▸ inv.null
      · rfl
  · split <;> rfl

theorem detach_inv {p : Process} {attached : Attached} (inv : Inv p attached) {t : ℕ}
    (live : t ∈ p.threads) {image : Image} (inside : image ∈ p.images) :
    Inv (p.tlsDetachThread t image)
      {pair | pair ∈ attached ∧ pair ≠ (image.hinstance, t)} := by
  have fewer := inv.mono {pair | pair ∈ attached ∧ pair ≠ (image.hinstance, t)}
    fun pair member => member.1
  rcases tls : image.tlsAddress with _ | template
  · have same : p.tlsDetachThread t image = p := by
      unfold Process.tlsDetachThread
      rw [tls]
    rw [same]
    exact fewer
  · have some_ : image.tlsAddress.isSome := by rw [tls]; rfl
    have own := inv.owned.allocated image inside some_
    obtain ⟨slot, blocks, next⟩ := detach_eq inv t some_ own.1
    obtain ⟨images, threads, pdb⟩ := detach_images p t image
    constructor
    · exact ⟨by rw [images, pdb]; exact inv.owned.allocated, by rw [images]; exact inv.owned.distinct⟩
    · rw [images]
      exact inv.nodup
    · intro other member u pair template' here
      rw [images] at member
      have tls' : other.tlsAddress.isSome := by rw [here]; rfl
      have away : ¬ (u = t ∧ other.tlsIndex = image.tlsIndex) := by
        rintro ⟨rfl, index⟩
        apply pair.2
        rw [inv.owned.distinct other member image inside tls' some_ index]
      have value := slot u other.tlsIndex
      rw [if_neg away] at value
      unfold Process.slot at value
      obtain ⟨bytes, block, length⟩ := inv.present other member u pair.1 template' here
      refine ⟨bytes, ?_, length⟩
      rw [value, blocks, if_neg]
      · exact block
      · intro same
        have nonzero := (inv.present other member u pair.1).slot_ne inv.null tls'
        exact away (inv.slotOwn u (inv.attached _ pair.1).1 t live _ _ same nonzero)
    · rw [images, threads]
      exact fewer.attached
    · intro a above
      rw [next] at above
      rw [blocks]
      split
      · rfl
      · exact inv.fresh a above
    · rw [blocks]
      split
      · rfl
      · exact inv.null
    · rw [next]
      exact inv.pos
    · rw [threads, next]
      intro u live' j
      rw [slot]
      split
      · exact Nat.lt_of_le_of_lt (Nat.zero_le _) (inv.slotBound u live' j)
      · exact inv.slotBound u live' j
    · rw [threads]
      intro u live' v live'' j k same nonzero
      rw [slot] at same nonzero
      split at nonzero
      · exact absurd rfl nonzero
      next here =>
      rw [if_neg here, slot] at same
      split at same
      · exact absurd same nonzero
      · exact inv.slotOwn u live' v live'' j k same nonzero

/-! ## Threads -/

theorem attachAll_inv {t : ℕ} {memory : ℕ → Bool} (images : List Image) {p : Process}
    {attached : Attached} (inv : Inv p attached) (live : t ∈ p.threads)
    (inside : ∀ image ∈ images, image ∈ p.images)
    (room : ∀ image ∈ images, image.tlsAddress.isSome → memory image.hinstance = true) :
    Inv (images.foldl (fun p image => p.tlsAttachThread t memory image) p)
      (attached ∪ {pair | (∃ image ∈ images, image.hinstance = pair.1) ∧ pair.2 = t}) := by
  induction images generalizing p attached with
  | nil =>
    apply inv.mono _
    intro pair member
    simpa using member
  | cons image images ih =>
    have same := attach_images p t memory image
    have next := ih (attach_inv inv live (inside image List.mem_cons_self)
        (room image List.mem_cons_self))
      (by rw [same.2.1]; exact live)
      (by rw [same.1]; exact fun other member => inside other (List.mem_cons_of_mem _ member))
      (fun other member => room other (List.mem_cons_of_mem _ member))
    apply next.mono _
    rintro ⟨id, u⟩ (old | ⟨⟨other, member, id'⟩, rfl⟩)
    · exact Or.inl (Set.mem_insert_of_mem _ old)
    · rcases List.mem_cons.mp member with rfl | member
      · exact Or.inl (Set.mem_insert_iff.mpr (Or.inl (Prod.ext id'.symm rfl)))
      · exact Or.inr ⟨⟨other, member, id'⟩, rfl⟩

theorem attachAll_images (t : ℕ) (memory : ℕ → Bool) (images : List Image) (p : Process) :
    (images.foldl (fun p image => p.tlsAttachThread t memory image) p).images = p.images := by
  induction images generalizing p with
  | nil => rfl
  | cons image images ih => exact (ih _).trans (attach_images p t memory image).1

theorem attachAll_null (t : ℕ) (memory : ℕ → Bool) (images : List Image) (p : Process)
    (null : p.blocks 0 = none) (pos : 0 < p.nextBlock) :
    (images.foldl (fun p image => p.tlsAttachThread t memory image) p).blocks 0 = none := by
  induction images generalizing p with
  | nil => exact null
  | cons image images ih =>
    have kept : (p.tlsAttachThread t memory image).blocks 0 = none ∧
        0 < (p.tlsAttachThread t memory image).nextBlock := by
      unfold Process.tlsAttachThread
      split
      · exact ⟨null, pos⟩
      split
      · exact ⟨null, pos⟩
      split
      · exact ⟨(if_neg (by omega)).trans null, Nat.succ_pos _⟩
      · exact ⟨null, pos⟩
    exact ih _ kept.1 kept.2

theorem attachAll_slot (t i : ℕ) (memory : ℕ → Bool) (images : List Image) (p : Process)
    (none_ : ∀ image ∈ images, image.tlsIndex = i → image.tlsAddress.isSome →
      memory image.hinstance = false) :
    (images.foldl (fun p image => p.tlsAttachThread t memory image) p).slot t i = p.slot t i := by
  induction images generalizing p with
  | nil => rfl
  | cons image images ih =>
    refine (ih _ fun other member => none_ other (List.mem_cons_of_mem _ member)).trans ?_
    have first := none_ image List.mem_cons_self
    change (p.tlsAttachThread t memory image).slot t i = p.slot t i
    unfold Process.tlsAttachThread
    split
    · rfl
    next template tls =>
    split
    · rfl
    next index =>
    split
    · next room =>
      have away : i ≠ image.tlsIndex := by
        intro same
        rw [first same.symm (by rw [tls]; rfl)] at room
        cases room
      unfold Tls.tlsSetValue
      simp only [if_neg index]
      rw [slot_setTeb, if_pos rfl, tlsArray_setSlot, if_neg away]
      rfl
    · rfl

theorem detachAll_inv {t : ℕ} (images : List Image) {p : Process} {attached : Attached}
    (inv : Inv p attached) (live : t ∈ p.threads) (inside : ∀ image ∈ images, image ∈ p.images) :
    Inv (images.foldl (fun p image => p.tlsDetachThread t image) p)
      {pair | pair ∈ attached ∧ ∀ image ∈ images, pair ≠ (image.hinstance, t)} ∧
    (images.foldl (fun p image => p.tlsDetachThread t image) p).images = p.images ∧
    (images.foldl (fun p image => p.tlsDetachThread t image) p).threads = p.threads := by
  induction images generalizing p attached with
  | nil => exact ⟨inv.mono _ fun pair member => member.1, rfl, rfl⟩
  | cons image images ih =>
    have same := detach_images p t image
    obtain ⟨next, images', threads⟩ := ih (detach_inv inv live (inside image List.mem_cons_self))
      (by rw [same.2.1]; exact live)
      (by rw [same.1]; exact fun other member => inside other (List.mem_cons_of_mem _ member))
    refine ⟨?_, images'.trans same.1, threads.trans same.2.1⟩
    apply next.mono _
    rintro pair ⟨old, others⟩
    exact ⟨⟨old, others image List.mem_cons_self⟩,
      fun other member => others other (List.mem_cons_of_mem _ member)⟩

/-! ## Images that go away -/

theorem find_spec {p : Process} {hinstance : ℕ} {image : Image}
    (found : p.find hinstance = some image) : image ∈ p.images ∧ image.hinstance = hinstance := by
  unfold Process.find at found
  exact ⟨List.mem_of_find?_eq_some found, by simpa using List.find?_some found⟩

theorem drop_inv {p : Process} {attached : Attached} (inv : Inv p attached) (hinstance : ℕ) :
    Inv { p with images := p.images.filter fun other => other.hinstance ≠ hinstance }
      {pair | pair ∈ attached ∧ pair.1 ≠ hinstance} := by
  have kept {image : Image}
      (member : image ∈ p.images.filter fun other => other.hinstance ≠ hinstance) :
      image ∈ p.images := (List.mem_filter.mp member).1
  constructor
  · constructor
    · exact fun image member tls => inv.owned.allocated image (kept member) tls
    · exact fun image member other member' =>
        inv.owned.distinct image (kept member) other (kept member')
  · exact fun image member other member' => inv.nodup image (kept member) other (kept member')
  · exact fun image member t pair => inv.present image (kept member) t pair.1
  · rintro pair ⟨old, other⟩
    obtain ⟨live, image, member, id⟩ := inv.attached pair old
    refine ⟨live, image, ?_, id⟩
    rw [List.mem_filter]
    exact ⟨member, by simpa [id] using other⟩
  · exact inv.fresh
  · exact inv.null
  · exact inv.pos
  · exact inv.slotBound
  · exact inv.slotOwn

theorem destroy_none (p : Process) (t : ℕ) (image : Image) (tls : image.tlsAddress = none) :
    p.destroy t image =
      { p with images := p.images.filter fun other => other.hinstance ≠ image.hinstance } := by
  have detach (p : Process) : p.tlsDetachThread t image = p := by
    unfold Process.tlsDetachThread
    rw [tls]
  have delete (p : Process) : p.tlsDelete t image = p := by
    unfold Process.tlsDelete
    rw [tls]
  unfold Process.destroy Process.detachProcess
  rw [detach, delete]
  simp

theorem destroy_bits (p : Process) (t : ℕ) (image : Image) {template : List ℕ}
    (tls : image.tlsAddress = some template) (index : image.tlsIndex < tlsMinimumAvailable) (j : ℕ) :
    (p.destroy t image).pdb.allocated j =
      if image.errorState = 0 ∧ image.fSkipEntryCalls = false ∧ image.dllEntryPoint = true then
        p.pdb.allocated j && !decide (j = freedIndex image.tlsIndex)
      else p.pdb.allocated j := by
  have delete : ((p.tlsDetachThread t image).tlsDelete t image).pdb.allocated j =
      (p.pdb.allocated j && !decide (j = freedIndex image.tlsIndex)) := by
    unfold Process.tlsDelete
    rw [tls]
    simp only
    rw [if_neg (by omega)]
    refine ((tlsFree_spec _ _ image.tlsIndex).2.1 j).trans ?_
    rw [(detach_images p t image).2.2]
  unfold Process.destroy Process.detachProcess
  by_cases error : image.errorState = 0
  · by_cases skip : image.fSkipEntryCalls = true
    · simp [error, skip]
    · have skip : image.fSkipEntryCalls = false := by simpa using skip
      by_cases entry : image.dllEntryPoint = true
      · simp only [error, skip, entry, if_true, Bool.false_eq_true, if_false, and_self]
        exact delete
      · have entry : image.dllEntryPoint = false := by simpa using entry
        simp only [error, skip, entry, if_true, Bool.false_eq_true, if_false, and_false]
        rw [(detach_images p t image).2.2]
  · simp [error]

theorem destroy_inv {p : Process} {attached : Attached} (inv : Inv p attached) {t : ℕ}
    (live : t ∈ p.threads) {image : Image} (inside : image ∈ p.images)
    (releases : image.Releases) :
    Inv (p.destroy t image) {pair | pair ∈ attached ∧ pair.1 ≠ image.hinstance} ∧
      Released p (p.destroy t image) attached t image := by
  rcases tls : image.tlsAddress with _ | template
  · rw [destroy_none p t image tls]
    refine ⟨drop_inv inv image.hinstance, ?_⟩
    intro some_
    rw [tls] at some_
    cases some_
  have some_ : image.tlsAddress.isSome := by rw [tls]; rfl
  obtain ⟨error, skip, entry, edge⟩ := releases some_
  have own := inv.owned.allocated image inside some_
  obtain ⟨slot, blocks, next⟩ := detach_eq inv t some_ own.1
  obtain ⟨images, threads, pdb⟩ := detach_images p t image
  have bits := destroy_bits p t image tls own.1
  simp only [error, skip, entry, if_true, and_self] at bits
  rw [show freedIndex image.tlsIndex = image.tlsIndex from if_neg edge] at bits
  -- the slot is cleared again, and the image taken off the list
  have shape : (p.destroy t image).images =
        ((p.tlsDetachThread t image).images.filter fun other =>
          other.hinstance ≠ image.hinstance) ∧
      (p.destroy t image).threads = (p.tlsDetachThread t image).threads ∧
      (p.destroy t image).blocks = (p.tlsDetachThread t image).blocks ∧
      (p.destroy t image).nextBlock = (p.tlsDetachThread t image).nextBlock ∧
      ∀ u j, (p.destroy t image).slot u j = if u = t ∧ j = image.tlsIndex then 0
        else (p.tlsDetachThread t image).slot u j := by
    unfold Process.destroy Process.detachProcess Process.tlsDelete
    simp only [error, skip, entry, if_true, Bool.false_eq_true, Bool.true_eq_false, if_false, tls]
    rw [if_neg (Nat.not_le.mpr own.1)]
    refine ⟨rfl, rfl, rfl, rfl, ?_⟩
    intro u j
    have free := (tlsFree_spec (p.tlsDetachThread t image).pdb ((p.tlsDetachThread t image).teb t)
      image.tlsIndex).2.2
    rw [show freedIndex image.tlsIndex = image.tlsIndex from if_neg edge, pdb, own.2,
      if_pos rfl] at free
    have set_ := slot_setTeb (p.tlsDetachThread t image) t u j
      (((p.tlsDetachThread t image).teb t).setSlot image.tlsIndex 0)
    rw [← pdb] at free
    rw [← free] at set_
    refine set_.trans ?_
    by_cases thread : u = t
    · subst thread
      rw [free]
      simp only [if_true, tlsArray_setSlot, true_and]
      rfl
    · rw [if_neg thread, if_neg (fun both => thread both.1)]
  obtain ⟨images', threads', blocks', next', slot'⟩ := shape
  constructor
  · have detached := drop_inv (detach_inv inv live inside) image.hinstance
    have cleared := detached.clear (p.destroy t image) t image.tlsIndex
      images' threads' blocks' next' slot' (by
        intro other member tls' same
        rw [List.mem_filter, images] at member
        have equal := inv.owned.distinct other member.1 image inside tls' some_ same
        simp [equal] at member) (by
        intro j different old
        rw [bits]
        simp [different]
        exact pdb ▸ old)
    apply cleared.mono _
    rintro pair ⟨old, id⟩
    refine ⟨⟨old, ?_⟩, id⟩
    rintro rfl
    exact id rfl
  · intro _
    refine ⟨?_, ?_⟩
    · rw [bits]
      simp
    · intro _
      rw [blocks', blocks]
      exact if_pos rfl

/-! ## Loading -/

theorem load_inv {p : Process} {attached : Attached} (inv : Inv p attached) {t : ℕ}
    (live : t ∈ p.threads) {image : Image} (new : p.find image.hinstance = none) {memory : Bool}
    (fits : image.tlsAddress.isSome →
      memory = true ∧ ∃ index < tlsMinimumAvailable, p.pdb.allocated index = false)
    {p' : Process} (stepped : step p (.load t image memory) = some p') :
    Inv p' (insert (image.hinstance, t) attached) := by
  have apart : ∀ other ∈ p.images, other.hinstance ≠ image.hinstance := by
    intro other member same
    unfold Process.find at new
    rw [List.find?_eq_none] at new
    exact new other member (by simpa using same)
  have unattached (u : ℕ) : (image.hinstance, u) ∉ attached := by
    intro member
    obtain ⟨_, other, inside, id⟩ := inv.attached _ member
    exact apart other inside id
  -- the image on the list, with nothing attached to it yet
  have listed (q : Process) (inv : Inv q attached) (images : q.images = p.images) (fresh : Image)
      (id : fresh.hinstance = image.hinstance)
      (own : fresh.tlsAddress.isSome → (fresh.tlsIndex < tlsMinimumAvailable ∧
        q.pdb.allocated fresh.tlsIndex = true) ∧
        ∀ other ∈ p.images, other.tlsAddress.isSome → other.tlsIndex ≠ fresh.tlsIndex) :
      Inv { q with images := fresh :: p.images } attached := by
    rw [← images] at apart own ⊢
    constructor
    · constructor
      · intro other member tls
        rcases List.mem_cons.mp member with rfl | member
        · exact (own tls).1
        · exact inv.owned.allocated other member tls
      · intro one member other member' tls tls' same
        rcases List.mem_cons.mp member with rfl | old <;>
          rcases List.mem_cons.mp member' with rfl | old'
        · rfl
        · exact absurd same.symm ((own tls).2 other old' tls')
        · exact absurd same ((own tls').2 one old tls)
        · exact inv.owned.distinct one old other old' tls tls' same
    · intro one member other member' same
      rcases List.mem_cons.mp member with rfl | old <;>
        rcases List.mem_cons.mp member' with rfl | old'
      · rfl
      · exact absurd (same.symm.trans id) (apart other old')
      · exact absurd (same.trans id) (apart one old)
      · exact inv.nodup one old other old' same
    · intro other member u pair
      rcases List.mem_cons.mp member with rfl | member
      · rw [id] at pair
        exact absurd pair (unattached u)
      · exact inv.present other member u pair
    · intro pair member
      obtain ⟨here, other, inside, same⟩ := inv.attached pair member
      exact ⟨here, other, List.mem_cons_of_mem _ inside, same⟩
    · exact inv.fresh
    · exact inv.null
    · exact inv.pos
    · exact inv.slotBound
    · exact inv.slotOwn
  -- attaching does not look at the list
  have commute (q : Process) (fresh : Image) (images : List Image) :
      { q.tlsAttachThread t (fun _ => memory) fresh with images := images } =
        ({ q with images := images } : Process).tlsAttachThread t (fun _ => memory) fresh := by
    unfold Process.tlsAttachThread
    split
    · rfl
    split
    · rfl
    split <;> rfl
  simp only [step] at stepped
  rw [if_pos ⟨live, new⟩] at stepped
  unfold Process.tlsAlloc at stepped
  rcases tls : image.tlsAddress with _ | template
  · simp only [tls] at stepped
    cases stepped
    rw [(attach_images p t _ _).1, commute]
    apply attach_inv (listed p inv rfl
      { image with tlsAddress := none, tlsIndex := tlsOutOfIndexes } rfl ?_) live List.mem_cons_self
    · intro some_
      cases some_
    · intro some_
      cases some_
  · obtain ⟨room, free⟩ := fits (by rw [tls]; rfl)
    simp only [tls] at stepped
    rcases result : Tls.tlsAlloc p.pdb (p.teb t) with ⟨index, pdb, teb⟩
    rw [result] at stepped
    simp only at stepped
    rcases tlsAlloc_spec result with ⟨_, full, _⟩ | ⟨inside, wasFree, bits, teb_⟩
    · obtain ⟨index, inside, isFree⟩ := free
      rw [full index inside] at isFree
      cases isFree
    · cases stepped
      have cleared : Inv { p.setTeb t teb with pdb := pdb } attached := by
        apply inv.clear { p.setTeb t teb with pdb := pdb } t index rfl rfl rfl rfl
        · intro u j
          refine (slot_setTeb p t u j teb).trans ?_
          rw [teb_]
          by_cases thread : u = t
          · subst thread
            simp only [if_true, tlsArray_setSlot, true_and]
            rfl
          · rw [if_neg thread, if_neg (fun both => thread both.1)]
        · intro other member tls' same
          rw [← same, (inv.owned.allocated other member tls').2] at wasFree
          cases wasFree
        · intro j _ old
          change pdb.allocated j = true
          rw [bits, old]
          rfl
      rw [(attach_images _ t _ _).1, commute]
      apply attach_inv (listed _ cleared rfl
        { image with tlsAddress := some template, tlsIndex := index } rfl ?_) live List.mem_cons_self
      · exact fun _ => room
      · intro _
        refine ⟨⟨inside, ?_⟩, ?_⟩
        · change pdb.allocated index = true
          rw [bits]
          simp
        · intro other member tls' same
          change other.tlsIndex = index at same
          rw [← same, (inv.owned.allocated other member tls').2] at wasFree
          cases wasFree

theorem load_fits {p : Process} {attached : Attached} (inv : Inv p attached) {t : ℕ} {image : Image}
    {memory : Bool} {p' : Process} (stepped : step p (.load t image memory) = some p')
    (owned : Owned p') (blocks : Blocks p' (insert (image.hinstance, t) attached)) :
    image.tlsAddress.isSome →
      memory = true ∧ ∃ index < tlsMinimumAvailable, p.pdb.allocated index = false := by
  intro some_
  obtain ⟨template, tls⟩ := Option.isSome_iff_exists.mp some_
  simp only [step] at stepped
  split at stepped
  swap
  · cases stepped
  next can =>
  unfold Process.tlsAlloc at stepped
  simp only [tls] at stepped
  rcases result : Tls.tlsAlloc p.pdb (p.teb t) with ⟨index, pdb, teb⟩
  rw [result] at stepped
  simp only at stepped
  have listed : { image with tlsAddress := some template, tlsIndex := index } ∈ p'.images := by
    cases stepped
    exact List.mem_cons_self
  have own := owned.allocated _ listed rfl
  rcases tlsAlloc_spec result with ⟨out, _⟩ | ⟨inside, wasFree, _, teb_⟩
  · have bound : index < tlsMinimumAvailable := own.1
    rw [out] at bound
    exact absurd bound (by decide)
  refine ⟨?_, index, inside, wasFree⟩
  cases memory with
  | true => rfl
  | false =>
    obtain ⟨bytes, block, _⟩ := blocks.present _ listed t (Set.mem_insert _ _) template rfl
    have same : p'.blocks = p.blocks ∧ (p'.teb t).tlsArray index = 0 := by
      cases stepped
      unfold Process.tlsAttachThread
      simp only
      rw [if_neg (show ¬ tlsMinimumAvailable ≤ index from Nat.not_le.mpr inside),
        if_neg (by decide)]
      refine ⟨rfl, ?_⟩
      refine (slot_setTeb p t t index teb).trans ?_
      rw [if_pos rfl, teb_, tlsArray_setSlot, if_pos rfl]
    change p'.blocks ((p'.teb t).tlsArray index) = _ at block
    rw [same.1, same.2, inv.null] at block
    cases block

/-! ## Runs -/

theorem step_inv {p : Process} {attached : Attached} (inv : Inv p attached) {op : Op} {p' : Process}
    (stepped : step p op = some p') (fits : Fits p op) :
    Inv p' (attach p attached op) ∧ ReleasedBy p p' attached op := by
  cases op with
  | load t image memory =>
    have can : t ∈ p.threads ∧ p.find image.hinstance = none := by
      simp only [step] at stepped
      split at stepped
      · assumption
      · cases stepped
    exact ⟨load_inv inv can.1 can.2 fits stepped, trivial⟩
  | failLoad t hinstance =>
    simp only [step] at stepped
    split at stepped
    swap
    · cases stepped
    next image found =>
    split at stepped
    swap
    · cases stepped
    obtain ⟨inside, id⟩ := find_spec found
    have tls := fits image inside id
    cases stepped
    rw [destroy_none p t { image with errorState := errorInternal } tls]
    subst id
    refine ⟨drop_inv inv image.hinstance, ?_⟩
    intro other member same some_
    rw [inv.nodup other member image inside same, tls] at some_
    cases some_
  | unload t hinstance =>
    simp only [step] at stepped
    split at stepped
    swap
    · cases stepped
    next image found =>
    split at stepped
    swap
    · cases stepped
    next live =>
    obtain ⟨inside, id⟩ := find_spec found
    cases stepped
    have both := destroy_inv inv live inside (fits image inside id)
    subst id
    refine ⟨both.1, ?_⟩
    intro other member same
    rw [inv.nodup other member image inside same]
    exact both.2
  | createThread t memory =>
    simp only [step] at stepped
    split at stepped
    · cases stepped
    next absent =>
    cases stepped
    have start : Inv { p.setTeb t newTeb with threads := t :: p.threads } attached := by
      have slots (u i : ℕ) : ({ p.setTeb t newTeb with threads := t :: p.threads } : Process).slot
          u i = if u = t then 0 else p.slot u i := slot_setTeb p t u i newTeb
      have other {u : ℕ} (live : u ∈ p.threads) : u ≠ t := by
        rintro rfl
        exact absent live
      constructor
      · exact ⟨inv.owned.allocated, inv.owned.distinct⟩
      · exact inv.nodup
      · intro image member u pair template here
        obtain ⟨bytes, block, length⟩ := inv.present image member u pair template here
        refine ⟨bytes, ?_, length⟩
        have same := slots u image.tlsIndex
        rw [if_neg (other (inv.attached _ pair).1)] at same
        unfold Process.slot at same
        rw [same]
        exact block
      · intro pair member
        exact ⟨List.mem_cons_of_mem _ (inv.attached pair member).1, (inv.attached pair member).2⟩
      · exact inv.fresh
      · exact inv.null
      · exact inv.pos
      · intro u live i
        rw [slots]
        split
        · exact inv.pos
        · next away => exact inv.slotBound u ((List.mem_cons.mp live).resolve_left away) i
      · intro u live v live' i j same nonzero
        rw [slots] at nonzero
        split at nonzero
        · exact absurd rfl nonzero
        next away =>
        rw [slots, slots, if_neg away] at same
        split at same
        · exact absurd same nonzero
        next away' =>
        exact inv.slotOwn u ((List.mem_cons.mp live).resolve_left away) v
          ((List.mem_cons.mp live').resolve_left away') i j same nonzero
    have all := attachAll_inv p.images start List.mem_cons_self (fun _ member => member) fits
    exact ⟨all, trivial⟩
  | exitThread t =>
    simp only [step] at stepped
    split at stepped
    swap
    · cases stepped
    next live =>
    cases stepped
    obtain ⟨all, images, threads⟩ := detachAll_inv p.images inv live fun _ member => member
    have fewer := all.mono {pair | pair ∈ attached ∧ pair.2 ≠ t} (by
      rintro pair ⟨old, away⟩
      refine ⟨old, ?_⟩
      rintro image _ rfl
      exact away rfl)
    refine ⟨?_, trivial⟩
    constructor
    · exact ⟨fewer.owned.allocated, fewer.owned.distinct⟩
    · exact fewer.nodup
    · exact fewer.present
    · rintro pair ⟨old, away⟩
      have here := fewer.attached pair ⟨old, away⟩
      exact ⟨List.mem_filter.mpr ⟨here.1, by simpa using away⟩, here.2⟩
    · exact fewer.fresh
    · exact fewer.null
    · exact fewer.pos
    · exact fun u live => fewer.slotBound u (List.mem_filter.mp live).1
    · exact fun u live v live' =>
        fewer.slotOwn u (List.mem_filter.mp live).1 v (List.mem_filter.mp live').1

theorem step_fits {p : Process} {attached : Attached} (inv : Inv p attached) {op : Op} {p' : Process}
    (stepped : step p op = some p') (owned : Owned p') (blocks : Blocks p' (attach p attached op))
    (released : ReleasedBy p p' attached op) : Fits p op := by
  cases op with
  | load t image memory => exact load_fits inv stepped owned blocks
  | failLoad t hinstance =>
    intro other inside id
    rcases tls : other.tlsAddress with _ | template
    · rfl
    have some_ : other.tlsAddress.isSome := by rw [tls]; rfl
    have free := (released other inside id some_).1
    simp only [step] at stepped
    split at stepped
    swap
    · cases stepped
    next image found =>
    split at stepped
    swap
    · cases stepped
    cases stepped
    obtain ⟨inside', id'⟩ := find_spec found
    have same := inv.nodup other inside image inside' (id.trans id'.symm)
    subst same
    have own := inv.owned.allocated other inside some_
    have bits := destroy_bits p t { other with errorState := errorInternal } tls own.1 other.tlsIndex
    rw [if_neg (by rintro ⟨error, -⟩; cases error), own.2] at bits
    rw [bits] at free
    cases free
  | unload t hinstance =>
    intro other inside id some_
    obtain ⟨template, tls⟩ := Option.isSome_iff_exists.mp some_
    have free := (released other inside id some_).1
    simp only [step] at stepped
    split at stepped
    swap
    · cases stepped
    next image found =>
    split at stepped
    swap
    · cases stepped
    cases stepped
    obtain ⟨inside', id'⟩ := find_spec found
    have same := inv.nodup other inside image inside' (id.trans id'.symm)
    subst same
    have own := inv.owned.allocated other inside some_
    rw [destroy_bits p t other tls own.1, own.2] at free
    split at free
    · next flags =>
      refine ⟨flags.1, flags.2.1, flags.2.2, ?_⟩
      intro edge
      rw [edge] at free
      cases free
    · cases free
  | createThread t memory =>
    intro image inside some_
    obtain ⟨template, tls⟩ := Option.isSome_iff_exists.mp some_
    cases room : memory image.hinstance with
    | true => rfl
    | false =>
      simp only [step] at stepped
      split at stepped
      · cases stepped
      change some (p.images.foldl (fun p image => p.tlsAttachThread t memory image)
        { p.setTeb t newTeb with threads := t :: p.threads }) = some p' at stepped
      cases stepped
      have listed := attachAll_images t memory p.images
        { p.setTeb t newTeb with threads := t :: p.threads }
      have slot := attachAll_slot t image.tlsIndex memory p.images
        { p.setTeb t newTeb with threads := t :: p.threads } (by
          intro other inside' index some_'
          rw [inv.owned.distinct other inside' image inside some_' some_ index]
          exact room)
      obtain ⟨bytes, block, _⟩ := blocks.present image (by rw [listed]; exact inside) t
        (Or.inr ⟨⟨image, inside, rfl⟩, rfl⟩) template tls
      have start := slot_setTeb p t t image.tlsIndex newTeb
      rw [if_pos rfl] at start
      have zero := slot.trans start
      have null := attachAll_null t memory p.images
        { p.setTeb t newTeb with threads := t :: p.threads } inv.null inv.pos
      unfold Process.slot at zero
      rw [zero, show newTeb.tlsArray image.tlsIndex = 0 from rfl, null] at block
      cases block
  | exitThread t => trivial

theorem runOk_iff_from {p : Process} {attached : Attached} (inv : Inv p attached) (ops : List Op) :
    RunOk p attached ops ↔ StepsFit p ops := by
  induction ops generalizing p attached with
  | nil => exact Iff.rfl
  | cons op ops ih =>
    constructor
    · intro ok p' stepped
      obtain ⟨owned, blocks, released, rest⟩ := ok p' stepped
      have fits := step_fits inv stepped owned blocks released
      exact ⟨fits, (ih (step_inv inv stepped fits).1).mp rest⟩
    · intro fit p' stepped
      obtain ⟨fits, rest⟩ := fit p' stepped
      obtain ⟨next, released⟩ := step_inv inv stepped fits
      exact ⟨next.owned, next.blocks, released, (ih next).mpr rest⟩

theorem newProcess_inv : Inv newProcess ∅ := by
  constructor
  · constructor
    · intro image member
      cases member
    · intro image member
      cases member
  · intro image member
    cases member
  · intro image member
    cases member
  · intro pair member
    cases member
  · intro a _
    rfl
  · rfl
  · exact Nat.one_pos
  · intro t _ i
    exact Nat.one_pos
  · intro t _ u _ i j _ nonzero
    exact absurd rfl nonzero

/-- In the runs of events that fit, and in no others, every image with a TLS directory owns
its index, every attached thread has its own block, and what is unloaded is released. -/
theorem run_tlsOwnership_iff (ops : List Op) :
    RunOk newProcess ∅ ops ↔ StepsFit newProcess ops :=
  runOk_iff_from newProcess_inv ops

/-- An image with a TLS directory and no entry point is loaded and unloaded. -/
theorem unloadWithoutEntry_not_runOk : ¬ ∀ ops : List Op, RunOk newProcess ∅ ops := by
  intro all
  have ok := all [.load 0 ⟨1, some [7], 3, false, false, 0, tlsOutOfIndexes⟩ true, .unload 0 1]
  rw [runOk_iff_from newProcess_inv] at ok
  obtain ⟨_, rest⟩ := ok _ rfl
  obtain ⟨fits, _⟩ := rest _ rfl
  have entry := (fits _ List.mem_cons_self rfl rfl).2.2.1
  cases entry

end Odin32.ImageTls
