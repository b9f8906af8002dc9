import Odin32.Avl

/-! # Rebalancing along the slot stack

A path is sound for a height when a tree of that height in its hole would make
the whole tree ranked and balanced. Rebalancing the node of a slot after its
child has moved by at most one level restores the node and moves it by at most
one level, which is what the next slot on the stack needs. -/

set_option autoImplicit false

namespace Odin32.AvlRebalance
open Odin32.RankedTree Odin32.Avl

variable {κ ν : Type}

@[simp] theorem uch_of_lt {n : ℕ} (h : n < 256) : uch n = n := Nat.mod_eq_of_lt h

/-- What one round of `AVLRebalance` makes of a node with key and children
`k`, `v`, `l`, `r` and height byte `h`. -/
structure Rebalanced (k : κ) (v : ν) (h : ℕ) (l r : Tree κ ν) (p : Tree κ ν × Bool) : Prop where
  entries_eq : entries p.1 = entries l ++ (k, v) :: entries r
  ranked : Ranked p.1
  balanced : Balanced p.1
  lower : max (height l) (height r) ≤ height p.1
  upper : height p.1 ≤ max (height l) (height r) + 1
  level : height l ≤ height r + 1 → height r ≤ height l + 1 →
    height p.1 = max (height l) (height r) + 1
  stop : p.2 = false → height p.1 = h

theorem rebalanceNode_left {k : κ} {v : ν} {h : ℕ} {l r : Tree κ ν}
    (hl : Ranked l) (hr : Ranked r) (bl : Balanced l) (br : Balanced r)
    (hd : height l = height r + 2) (hB : height l < 255) :
    Rebalanced k v h l r (avlRebalanceNode (.node k v h l r)) := by
  have el := rankOf_eq_height hl
  have er := rankOf_eq_height hr
  cases l with
  | nil => simp at hd
  | node lk lv lh ll lr =>
    obtain ⟨-, rll, rlr⟩ := hl
    obtain ⟨b1, b2, bll, blr⟩ := bl
    have ell := rankOf_eq_height rll
    have elr := rankOf_eq_height rlr
    simp only [rankOf_node, height_node] at el hd hB
    by_cases hrot : height lr ≤ height ll
    · have hn : height ll = height r + 1 := by omega
      have hres : avlRebalanceNode (.node k v h (.node lk lv lh ll lr) r) =
          (.node lk lv (height lr + 2) ll (.node k v (height lr + 1) lr r), true) := by
        simp [avlRebalanceNode, avlHeightOf, er, ell, elr, hrot,
          show height r + 1 < lh by omega,
          uch_of_lt (show 1 + height lr < 256 by omega),
          uch_of_lt (show 1 + (1 + height lr) < 256 by omega)]
        omega
      rw [hres]
      refine ⟨by simp, ⟨?_, rll, ?_, rlr, hr⟩, ⟨?_, ?_, bll, ?_, ?_, blr, br⟩, ?_, ?_, ?_, ?_⟩ <;>
        first | omega | (simp only [height_node]; omega) | simp
    · cases lr with
      | nil => simp at hrot
      | node mk mv mh ml mr =>
        obtain ⟨rm, rml, rmr⟩ := rlr
        obtain ⟨b3, b4, bml, bmr⟩ := blr
        simp only [rankOf_node, height_node] at elr hd hB hrot b1 b2 rm el
        have hres : avlRebalanceNode (.node k v h (.node lk lv lh ll (.node mk mv mh ml mr)) r) =
            (.node mk mv lh (.node lk lv mh ll ml) (.node k v mh mr r), true) := by
          simp [avlRebalanceNode, avlHeightOf, er, ell, show height r + 1 < lh by omega,
            show ¬ mh ≤ height ll by omega]
        rw [hres]
        refine ⟨by simp, ⟨?_, ⟨?_, rll, rml⟩, ?_, rmr, hr⟩,
          ⟨?_, ?_, ⟨?_, ?_, bll, bml⟩, ?_, ?_, bmr, br⟩, ?_, ?_, ?_, ?_⟩ <;>
          first | omega | (simp only [height_node]; omega) | simp

theorem rebalanceNode_right {k : κ} {v : ν} {h : ℕ} {l r : Tree κ ν}
    (hl : Ranked l) (hr : Ranked r) (bl : Balanced l) (br : Balanced r)
    (hd : height r = height l + 2) (hB : height r < 255) :
    Rebalanced k v h l r (avlRebalanceNode (.node k v h l r)) := by
  have el := rankOf_eq_height hl
  have er := rankOf_eq_height hr
  cases r with
  | nil => simp at hd
  | node rk rv rh rl rr =>
    obtain ⟨-, rrl, rrr⟩ := hr
    obtain ⟨b1, b2, brl, brr⟩ := br
    have erl := rankOf_eq_height rrl
    have err := rankOf_eq_height rrr
    simp only [rankOf_node, height_node] at er hd hB
    have hnl : ¬ rh + 1 < height l := by omega
    by_cases hrot : height rl ≤ height rr
    · have hres : avlRebalanceNode (.node k v h l (.node rk rv rh rl rr)) =
          (.node rk rv (height rl + 2) (.node k v (height rl + 1) l rl) rr, true) := by
        simp [avlRebalanceNode, avlHeightOf, el, erl, err, hrot, hnl,
          show height l + 1 < rh by omega,
          uch_of_lt (show 1 + height rl < 256 by omega),
          uch_of_lt (show 1 + (1 + height rl) < 256 by omega)]
        omega
      rw [hres]
      refine ⟨by simp, ⟨?_, ⟨?_, hl, rrl⟩, rrr⟩, ⟨?_, ?_, ⟨?_, ?_, bl, brl⟩, brr⟩, ?_, ?_, ?_, ?_⟩ <;>
        first | omega | (simp only [height_node]; omega) | simp
    · cases rl with
      | nil => simp at hrot
      | node mk mv mh ml mr =>
        obtain ⟨rm, rml, rmr⟩ := rrl
        obtain ⟨b3, b4, bml, bmr⟩ := brl
        simp only [rankOf_node, height_node] at erl hd hB hrot b1 b2 rm er
        have hres : avlRebalanceNode (.node k v h l (.node rk rv rh (.node mk mv mh ml mr) rr)) =
            (.node mk mv rh (.node k v mh l ml) (.node rk rv mh mr rr), true) := by
          simp [avlRebalanceNode, avlHeightOf, el, err, hnl,
            show height l + 1 < rh by omega, show ¬ mh ≤ height rr by omega]
        rw [hres]
        refine ⟨by simp, ⟨?_, ⟨?_, hl, rml⟩, ?_, rmr, rrr⟩,
          ⟨?_, ?_, ⟨?_, ?_, bl, bml⟩, ?_, ?_, bmr, brr⟩, ?_, ?_, ?_, ?_⟩ <;>
          first | omega | (simp only [height_node]; omega) | simp

theorem rebalanceNode_level {k : κ} {v : ν} {h : ℕ} {l r : Tree κ ν}
    (hl : Ranked l) (hr : Ranked r)
    (h1 : height l ≤ height r + 1) (h2 : height r ≤ height l + 1)
    (hB : max (height l) (height r) < 255) :
    avlRebalanceNode (.node k v h l r) =
      (.node k v (max (height l) (height r) + 1) l r,
        decide (max (height l) (height r) + 1 ≠ h)) := by
  simp only [avlRebalanceNode, avlHeightOf, rankOf_eq_height hl, rankOf_eq_height hr,
    show ¬ height r + 1 < height l by omega, show ¬ height l + 1 < height r by omega, if_false,
    uch_of_lt (show max (height l) (height r) + 1 < 256 by omega)]
  by_cases hh : max (height l) (height r) + 1 = h <;> simp [hh]

theorem rebalanceNode_spec {k : κ} {v : ν} {h : ℕ} {l r : Tree κ ν}
    (hl : Ranked l) (hr : Ranked r) (bl : Balanced l) (br : Balanced r)
    (h1 : height l ≤ height r + 2) (h2 : height r ≤ height l + 2)
    (hB : max (height l) (height r) < 255) :
    Rebalanced k v h l r (avlRebalanceNode (.node k v h l r)) := by
  rcases Nat.lt_trichotomy (height l) (height r + 2) with hlt | heq | hgt
  · rcases Nat.lt_trichotomy (height r) (height l + 2) with hlt' | heq' | hgt'
    · rw [rebalanceNode_level hl hr (by omega) (by omega) hB]
      refine ⟨by simp, ⟨rfl, hl, hr⟩, ⟨by omega, by omega, bl, br⟩, ?_, ?_, ?_, ?_⟩ <;>
        simp
    · exact rebalanceNode_right hl hr bl br heq' (by omega)
    · omega
  · exact rebalanceNode_left hl hr bl br heq (by omega)
  · omega

/-! ## Paths -/

/-- A tree of height `n` in the hole of the path makes every node of the path
ranked and balanced. -/
def Sound : ℕ → List (Frame κ ν) → Prop
  | _, [] => True
  | n, f :: fs => f.rank = max n (height f.other) + 1 ∧ n ≤ height f.other + 1 ∧
      height f.other ≤ n + 1 ∧ Ranked f.other ∧ Balanced f.other ∧ Sound f.rank fs

/-- The height of the whole tree when the hole holds a tree of height `n`. -/
def topHeight : ℕ → List (Frame κ ν) → ℕ
  | n, [] => n
  | _, f :: fs => topHeight f.rank fs

theorem fill_ranked {n : ℕ} {f : Frame κ ν} {fs : List (Frame κ ν)} {t : Tree κ ν}
    (hs : Sound n (f :: fs)) (ht : height t = n) (hr : Ranked t) (hb : Balanced t) :
    Ranked (f.fill t) ∧ Balanced (f.fill t) ∧ height (f.fill t) = f.rank := by
  obtain ⟨hrank, h1, h2, hor, hob, -⟩ := hs
  obtain ⟨side, k, v, h, o⟩ := f
  subst ht
  cases side <;> simp_all [Frame.fill, Ranked, RankedTree.Balanced, max_comm]

theorem plug_sound {n : ℕ} {fs : List (Frame κ ν)} {t : Tree κ ν}
    (hs : Sound n fs) (ht : height t = n) (hr : Ranked t) (hb : Balanced t) :
    Ranked (plug fs t) ∧ Balanced (plug fs t) ∧ height (plug fs t) = topHeight n fs := by
  induction fs generalizing n t with
  | nil => exact ⟨hr, hb, ht⟩
  | cons f fs ih =>
    obtain ⟨fr, fb, fh⟩ := fill_ranked hs ht hr hb
    exact ih hs.2.2.2.2.2 fh fr fb

theorem sound_of_plug (fs : List (Frame κ ν)) {t : Tree κ ν}
    (hr : Ranked (plug fs t)) (hb : Balanced (plug fs t)) :
    Ranked t ∧ Balanced t ∧ Sound (height t) fs := by
  induction fs generalizing t with
  | nil => exact ⟨hr, hb, trivial⟩
  | cons f fs ih =>
    obtain ⟨fr, fb, fs'⟩ := ih hr hb
    obtain ⟨side, k, v, h, o⟩ := f
    cases side with
    | left =>
      obtain ⟨e, rt, ro⟩ := fr
      obtain ⟨b1, b2, bt, bo⟩ := fb
      refine ⟨rt, bt, e, b1, b2, ro, bo, ?_⟩
      rwa [show height (Frame.fill ⟨.left, k, v, h, o⟩ t) = h from e.symm] at fs'
    | right =>
      obtain ⟨e, ro, rt⟩ := fr
      obtain ⟨b1, b2, bo, bt⟩ := fb
      refine ⟨rt, bt, ?_, b2, b1, ro, bo, ?_⟩
      · simpa [max_comm] using e
      · rwa [show height (Frame.fill ⟨.right, k, v, h, o⟩ t) = h from e.symm] at fs'

theorem rank_le_topHeight {n : ℕ} {fs : List (Frame κ ν)} (hs : Sound n fs) :
    n ≤ topHeight n fs := by
  induction fs generalizing n with
  | nil => exact le_refl n
  | cons f fs ih =>
    have := ih hs.2.2.2.2.2
    have := hs.1
    simp only [topHeight]
    omega

/-- One round on the node of the top slot: its new content is ranked, balanced
and at most one level away from the old height of the node. -/
theorem rebalance_fill {n : ℕ} {f : Frame κ ν} {fs : List (Frame κ ν)} {t : Tree κ ν}
    (hs : Sound n (f :: fs)) (hr : Ranked t) (hb : Balanced t)
    (h1 : n ≤ height t + 1) (h2 : height t ≤ n + 1) (hB : topHeight n (f :: fs) < 254) :
    ∃ t' go, avlRebalanceNode (f.fill t) = (t', go) ∧ entries t' = entries (f.fill t) ∧
      Ranked t' ∧ Balanced t' ∧ f.rank ≤ height t' + 1 ∧ height t' ≤ f.rank + 1 ∧
      height t' ≤ max (height t) (height f.other) + 1 ∧ (go = false → height t' = f.rank) := by
  obtain ⟨hrank, d1, d2, hor, hob, hfs⟩ := hs
  have htop := rank_le_topHeight hfs
  simp only [topHeight] at hB
  obtain ⟨side, k, v, h, o⟩ := f
  simp only at hrank d1 d2 hor hob htop hB
  cases side with
  | left =>
    have hsp := rebalanceNode_spec (k := k) (v := v) (h := h) hr hor hb hob
      (by omega) (by omega) (by omega)
    rcases hp : avlRebalanceNode (.node k v h t o) with ⟨t', go⟩
    rw [hp] at hsp
    obtain ⟨e1, e2, e3, e4, e5, e6, e7⟩ := hsp
    simp only at e4 e5 e6
    exact ⟨t', go, hp, by simpa [Frame.fill] using e1, e2, e3, by simp only; omega,
      by simp only; omega, e5, e7⟩
  | right =>
    have hsp := rebalanceNode_spec (k := k) (v := v) (h := h) hor hr hob hb
      (by omega) (by omega) (by omega)
    rcases hp : avlRebalanceNode (.node k v h o t) with ⟨t', go⟩
    rw [hp] at hsp
    obtain ⟨e1, e2, e3, e4, e5, e6, e7⟩ := hsp
    simp only at e4 e5 e6
    exact ⟨t', go, hp, by simpa [Frame.fill] using e1, e2, e3, by simp only; omega,
      by simp only; omega, by simp only; omega, e7⟩

/-- Rebalancing restores the whole tree and keeps its entries, whichever slot
the loop stops at. -/
theorem rebalance_sound {n : ℕ} {fs : List (Frame κ ν)} {t : Tree κ ν}
    (hs : Sound n fs) (hr : Ranked t) (hb : Balanced t)
    (h1 : n ≤ height t + 1) (h2 : height t ≤ n + 1) (hB : topHeight n fs < 254) :
    Ranked (avlRebalance fs t) ∧ Balanced (avlRebalance fs t) ∧
      entries (avlRebalance fs t) = before fs ++ entries t ++ after fs := by
  induction fs generalizing n t with
  | nil => simp [avlRebalance, before, after, hr, hb]
  | cons f fs ih =>
    obtain ⟨t', go, he, hent, hr', hb', g1, g2, -, hstop⟩ := rebalance_fill hs hr hb h1 h2 hB
    have hplug : before fs ++ entries t' ++ after fs =
        before (f :: fs) ++ entries t ++ after (f :: fs) := by
      rw [hent, ← entries_plug fs, ← entries_plug (f :: fs)]
      rfl
    cases go with
    | true =>
      simp only [avlRebalance, he]
      rw [← hplug]
      exact ih hs.2.2.2.2.2 hr' hb' g1 g2 hB
    | false =>
      obtain ⟨pr, pb, -⟩ := plug_sound hs.2.2.2.2.2 (hstop rfl) hr' hb'
      simp only [avlRebalance, he, entries_plug]
      exact ⟨pr, pb, hplug⟩

/-- Rebalancing never makes the tree higher than it was, or than the path to the
place of the change is long. -/
theorem rebalance_height {n d : ℕ} {fs : List (Frame κ ν)} {t : Tree κ ν}
    (hs : Sound n fs) (hr : Ranked t) (hb : Balanced t)
    (h1 : n ≤ height t + 1) (h2 : height t ≤ n + 1) (hB : topHeight n fs < 254)
    (hd : height t ≤ n ∨ height t ≤ d) :
    height (avlRebalance fs t) ≤ topHeight n fs ∨
      height (avlRebalance fs t) ≤ d + fs.length := by
  induction fs generalizing n d t with
  | nil => simpa [avlRebalance, topHeight] using hd
  | cons f fs ih =>
    obtain ⟨t', go, he, -, hr', hb', g1, g2, hup, hstop⟩ := rebalance_fill hs hr hb h1 h2 hB
    have hrank := hs.1
    cases go with
    | true =>
      have hd' : height t' ≤ f.rank ∨ height t' ≤ d + 1 := by omega
      have := ih hs.2.2.2.2.2 hr' hb' g1 g2 hB hd'
      simp only [avlRebalance, he, topHeight, List.length_cons]
      omega
    | false =>
      obtain ⟨-, -, ph⟩ := plug_sound hs.2.2.2.2.2 (hstop rfl) hr' hb'
      simp only [avlRebalance, he, topHeight, ph]
      exact Or.inl le_rfl

end Odin32.AvlRebalance
