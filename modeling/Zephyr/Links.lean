import Mathlib

/-! Circular doubly linked lists over two pointer maps. A ring is a closed path
through its anchor; a family of rings lives in the same maps and shares no node. -/

namespace Zephyr

open Function List

structure Links (A : Type*) where
  next : A → A
  prev : A → A

namespace Links

section Rings

variable {A I : Type*} {h h' : Links A} {l a b n : A} {xs ys u v p : List A}

def Adj (h : Links A) (a b : A) : Prop := h.next a = b ∧ h.prev b = a

def Path (h : Links A) (p : List A) : Prop := p.IsChain h.Adj

/-- The nodes `xs`, in order, are those met on the closed path through the anchor `l`. -/
def IsRing (h : Links A) (l : A) (xs : List A) : Prop := h.Path (l :: xs ++ [l]) ∧ (l :: xs).Nodup

/-- Rings with distinct anchors and no node in common, one for each index of `dom`. -/
structure Rings (h : Links A) (dom : Set I) (anchor : I → A) (nodes : I → List A) : Prop where
  ring : ∀ i ∈ dom, h.IsRing (anchor i) (nodes i)
  disjoint : ∀ i ∈ dom, ∀ j ∈ dom, i ≠ j → (anchor i :: nodes i).Disjoint (anchor j :: nodes j)

theorem Path.frame (hp : h.Path p) (hn : ∀ x ∈ p.dropLast, h'.next x = h.next x)
    (hv : ∀ x ∈ p.tail, h'.prev x = h.prev x) : h'.Path p := by
  induction p with
  | nil => exact .nil
  | cons a p ih =>
    cases p with
    | nil => exact .singleton _
    | cons b p =>
      have hh := isChain_cons_cons.mp hp
      refine isChain_cons_cons.mpr ⟨⟨?_, ?_⟩, ih hh.2 ?_ ?_⟩
      · rw [hn a (by simp), hh.1.1]
      · rw [hv b (by simp), hh.1.2]
      · intro x hx
        exact hn x (by simp [hx])
      · intro x hx
        exact hv x (mem_cons_of_mem _ hx)

theorem IsRing.nodup (hr : h.IsRing l xs) : xs.Nodup := hr.2.of_cons

theorem IsRing.anchor_not_mem (hr : h.IsRing l xs) : l ∉ xs := hr.2.notMem

theorem IsRing.frame (hr : h.IsRing l xs) (hn : ∀ x ∈ l :: xs, h'.next x = h.next x)
    (hv : ∀ x ∈ l :: xs, h'.prev x = h.prev x) : h'.IsRing l xs := by
  refine ⟨hr.1.frame ?_ ?_, hr.2⟩
  · intro x hx
    rw [dropLast_concat] at hx
    exact hn x hx
  · intro x hx
    apply hv x
    simp only [cons_append, tail_cons, mem_append, mem_singleton] at hx
    rcases hx with hx | rfl
    · exact mem_cons_of_mem _ hx
    · exact mem_cons_self

theorem IsRing.adj (hr : h.IsRing l (u ++ v)) (ha : (l :: u).getLast? = some a)
    (hb : (v ++ [l]).head? = some b) : h.Adj a b := by
  have hc : (l :: u ++ (v ++ [l])).IsChain h.Adj := by simpa [Path] using hr.1
  exact (isChain_append.mp hc).2.2 a ha b hb

theorem exists_getLast?_cons (l : A) (xs : List A) : ∃ a, (l :: xs).getLast? = some a :=
  ⟨_, getLast?_eq_some_getLast (cons_ne_nil l xs)⟩

theorem exists_head?_concat (l : A) (xs : List A) : ∃ b, (xs ++ [l]).head? = some b := by
  cases xs with
  | nil => exact ⟨l, rfl⟩
  | cons x xs => exact ⟨x, rfl⟩

theorem IsRing.prev_mem (hr : h.IsRing l (u ++ n :: v)) : (l :: u).getLast? = some (h.prev n) := by
  obtain ⟨a, ha⟩ := exists_getLast?_cons l u
  rw [ha, (hr.adj ha (b := n) rfl).2]

theorem IsRing.next_mem (hr : h.IsRing l (u ++ n :: v)) : (v ++ [l]).head? = some (h.next n) := by
  obtain ⟨b, hb⟩ := exists_head?_concat l v
  have hh := IsRing.adj (u := u ++ [n]) (a := n) (by simpa using hr)
    (by rw [← cons_append, getLast?_concat]) hb
  rw [hb, hh.1]

theorem IsRing.prev_anchor (hr : h.IsRing l xs) : (l :: xs).getLast? = some (h.prev l) := by
  obtain ⟨a, ha⟩ := exists_getLast?_cons l xs
  have hh := IsRing.adj (v := []) (b := l) (by simpa using hr) ha rfl
  rw [ha, hh.2]

theorem IsRing.next_anchor (hr : h.IsRing l xs) : (xs ++ [l]).head? = some (h.next l) := by
  obtain ⟨b, hb⟩ := exists_head?_concat l xs
  have hh := IsRing.adj (u := []) (a := l) (by simpa using hr) rfl hb
  rw [hb, hh.1]

theorem IsRing.eq_of_next_eq_prev (hr : h.IsRing l xs) (he : h.next l = h.prev l) (ha : a ∈ xs)
    (hb : b ∈ xs) : a = b := by
  have hn := hr.next_anchor
  have hp := hr.prev_anchor
  have hnd := hr.nodup
  rcases eq_nil_or_concat' xs with rfl | ⟨u, y, rfl⟩
  · simp at ha
  · have hy : y = h.prev l := by
      rw [← cons_append, getLast?_concat] at hp
      exact Option.some.inj hp
    cases u with
    | nil =>
      obtain rfl : a = y := by simpa using ha
      obtain rfl : b = a := by simpa using hb
      rfl
    | cons x u =>
      have hx : x = h.next l := by simpa using hn
      rw [hx, he, ← hy] at hnd
      simp at hnd

theorem IsRing.next_closed (hr : h.IsRing l xs) (ha : a ∈ l :: xs) :
    h.next a ∈ l :: xs ∧ h.prev (h.next a) = a := by
  obtain ⟨u, v, he⟩ := append_of_mem ha
  obtain ⟨b, hb⟩ := exists_head?_concat l v
  have hc : (u ++ [a] ++ (v ++ [l])).IsChain h.Adj := by
    have := hr.1
    rw [Path, he] at this
    simpa using this
  have hab := (isChain_append.mp hc).2.2 a (by simp) b hb
  have hbm := mem_of_mem_head? hb
  refine ⟨?_, by rw [hab.1, hab.2]⟩
  rw [hab.1]
  rcases mem_append.mp hbm with hv | hl
  · rw [he]
    simp [hv]
  · rw [mem_singleton.mp hl]
    exact mem_cons_self

theorem Rings.mono {dom dom' : Set I} {anchor : I → A} {nodes : I → List A}
    (hr : h.Rings dom anchor nodes) (hd : dom' ⊆ dom) : h.Rings dom' anchor nodes :=
  ⟨fun i hi => hr.ring i (hd hi), fun i hi j hj => hr.disjoint i (hd hi) j (hd hj)⟩

end Rings

section Updates

variable {A I : Type*} {h : Links A} {l a b n : A}
  {xs u v : List A} {dom : Set I} {anchor : I → A} {nodes : I → List A} {i : I}

theorem Rings.not_mem_of_ne (hr : h.Rings dom anchor nodes) (hi : i ∈ dom) {j : I} (hj : j ∈ dom)
    (hne : j ≠ i) (ha : a ∈ anchor i :: nodes i) : a ∉ anchor j :: nodes j :=
  fun hm => disjoint_left.mp (hr.disjoint j hj i hi hne) hm ha

variable [DecidableEq I]

theorem not_mem_dropLast (hnd : xs.Nodup) (ha : xs.getLast? = some a) : a ∉ xs.dropLast := by
  obtain ⟨p, rfl⟩ := getLast?_eq_some_iff.mp ha
  rw [dropLast_concat]
  exact fun hm => (nodup_append.mp hnd).2.2 a hm a (by simp) rfl

theorem not_mem_tail (hnd : xs.Nodup) (hb : xs.head? = some b) : b ∉ xs.tail := by
  obtain ⟨q, rfl⟩ := head?_eq_some_iff.mp hb
  exact hnd.notMem

theorem IsRing.cut (hr : h.IsRing l (u ++ v)) :
    h.Path (l :: u) ∧ h.Path (v ++ [l]) ∧ (l :: u).Nodup ∧ (v ++ [l]).Nodup ∧
      (∀ x ∈ l :: u, x ∉ v) ∧ (∀ x ∈ u, x ∉ v ++ [l]) := by
  have hc : (l :: u ++ (v ++ [l])).IsChain h.Adj := by simpa [Path] using hr.1
  have hs := isChain_append.mp hc
  have hnd : (l :: u ++ v).Nodup := by simpa using hr.2
  have hd := nodup_append.mp hnd
  have hl := hr.anchor_not_mem
  simp only [mem_append, not_or] at hl
  refine ⟨hs.1, hs.2.1, hd.1, ?_, fun x hx hb => hd.2.2 x hx x hb rfl, ?_⟩
  · refine nodup_append.mpr ⟨hd.2.1, nodup_singleton l, ?_⟩
    rintro x hx y hy rfl
    exact hl.2 (mem_singleton.mp hy ▸ hx)
  · intro x hx hb
    rcases mem_append.mp hb with hb | hb
    · exact hd.2.2 x (mem_cons_of_mem l hx) x hb rfl
    · exact hl.1 (mem_singleton.mp hb ▸ hx)

variable [DecidableEq A] {x : A}

def setNext (h : Links A) (a b : A) : Links A := { h with next := update h.next a b }

def setPrev (h : Links A) (a b : A) : Links A := { h with prev := update h.prev a b }

def link (h : Links A) (a n b : A) : Links A where
  next := update (update h.next n b) a n
  prev := update (update h.prev n a) b n

def unlink (h : Links A) (n : A) : Links A where
  next := update h.next (h.prev n) (h.next n)
  prev := update h.prev (h.next n) (h.prev n)

theorem link_next_of_ne (hn : x ≠ n) (ha : x ≠ a) : (h.link a n b).next x = h.next x := by
  simp [link, hn, ha]

theorem link_prev_of_ne (hn : x ≠ n) (hb : x ≠ b) : (h.link a n b).prev x = h.prev x := by
  simp [link, hn, hb]

theorem link_adj_left (hb : n ≠ b) : (h.link a n b).Adj a n := by
  simp [Adj, link, update_of_ne hb]

theorem link_adj_right (ha : n ≠ a) : (h.link a n b).Adj n b := by
  simp [Adj, link, update_of_ne ha]

theorem unlink_next_of_ne (hx : x ≠ h.prev n) : (h.unlink n).next x = h.next x := by
  simp [unlink, update_of_ne hx]

theorem unlink_prev_of_ne (hx : x ≠ h.next n) : (h.unlink n).prev x = h.prev x := by
  simp [unlink, update_of_ne hx]

theorem unlink_eq_self (hn : h.Adj (h.prev n) (h.next n)) : h.unlink n = h := by
  obtain ⟨_, _⟩ := h
  simp only [unlink, mk.injEq]
  exact ⟨update_eq_self_iff.mpr hn.1.symm, update_eq_self_iff.mpr hn.2.symm⟩

theorem Path.link_off (hp : h.Path xs) (hn : n ∉ xs) (ha : a ∉ xs.dropLast) (hb : b ∉ xs.tail) :
    (h.link a n b).Path xs := by
  refine hp.frame ?_ ?_
  · intro x hx
    refine link_next_of_ne ?_ (fun he => ha (he ▸ hx))
    exact fun he => hn (he ▸ (dropLast_sublist xs).subset hx)
  · intro x hx
    refine link_prev_of_ne ?_ (fun he => hb (he ▸ hx))
    exact fun he => hn (he ▸ mem_of_mem_tail hx)

theorem Path.unlink_off (hp : h.Path xs) (ha : h.prev n ∉ xs.dropLast) (hb : h.next n ∉ xs.tail) :
    (h.unlink n).Path xs := by
  refine hp.frame ?_ ?_
  · exact fun x hx => unlink_next_of_ne (fun he => ha (he ▸ hx))
  · exact fun x hx => unlink_prev_of_ne (fun he => hb (he ▸ hx))

theorem IsRing.link (hr : h.IsRing l (u ++ v)) (hn : n ∉ l :: (u ++ v))
    (ha : (l :: u).getLast? = some a) (hb : (v ++ [l]).head? = some b) :
    (h.link a n b).IsRing l (u ++ n :: v) := by
  obtain ⟨hleft, hright, hnl, hnr, hlb, har⟩ := hr.cut
  have ham := mem_of_mem_getLast? ha
  have hbm := mem_of_mem_head? hb
  have hnl' : n ∉ l :: u := fun hm => hn (mem_append_left v hm)
  have hnr' : n ∉ v ++ [l] := by
    simp only [mem_cons, mem_append, not_or] at hn
    simp [hn]
  have hl : (h.link a n b).Path (l :: u) :=
    hleft.link_off hnl' (not_mem_dropLast hnl ha) (fun hm => har b hm hbm)
  have hr' : (h.link a n b).Path (v ++ [l]) :=
    hright.link_off hnr' (by rw [dropLast_concat]; exact hlb a ham) (not_mem_tail hnr hb)
  constructor
  · have hh : (l :: u ++ (n :: (v ++ [l]))).IsChain (h.link a n b).Adj := by
      refine isChain_append.mpr ⟨hl, isChain_cons.mpr ⟨?_, hr'⟩, ?_⟩
      · intro y hy
        obtain rfl : b = y := Option.some.inj (hb.symm.trans hy)
        exact link_adj_right (fun he => hnl' (he ▸ ham))
      · intro x hx y hy
        obtain rfl : a = x := Option.some.inj (ha.symm.trans hx)
        obtain rfl : n = y := Option.some.inj hy
        exact link_adj_left (fun he => hnr' (he ▸ hbm))
    simpa [Path] using hh
  · have hperm : (l :: (u ++ n :: v)).Perm (n :: (l :: (u ++ v))) :=
      (perm_middle.cons l).trans (List.Perm.swap n l _)
    exact hperm.nodup_iff.mpr (nodup_cons.mpr ⟨hn, hr.2⟩)

theorem IsRing.unlink (hr : h.IsRing l (u ++ n :: v)) : (h.unlink n).IsRing l (u ++ v) := by
  have ha := hr.prev_mem
  have hb := hr.next_mem
  obtain ⟨hleft, hright, hnl, hnr, hlb, har⟩ := hr.cut
  have ham := mem_of_mem_getLast? ha
  have hbm := mem_of_mem_head? hb
  have htail : h.Path (v ++ [l]) := List.IsChain.tail hright
  have hl : (h.unlink n).Path (l :: u) :=
    hleft.unlink_off (not_mem_dropLast hnl ha) (fun hm => har _ hm (mem_cons_of_mem n hbm))
  have hr' : (h.unlink n).Path (v ++ [l]) := by
    refine htail.unlink_off ?_ (not_mem_tail hnr.tail hb)
    rw [dropLast_concat]
    exact fun hm => hlb _ ham (mem_cons_of_mem n hm)
  constructor
  · have hh : (l :: u ++ (v ++ [l])).IsChain (h.unlink n).Adj := by
      refine isChain_append.mpr ⟨hl, hr', ?_⟩
      intro x hx y hy
      obtain rfl : h.prev n = x := Option.some.inj (ha.symm.trans hx)
      obtain rfl : h.next n = y := Option.some.inj (hb.symm.trans hy)
      simp [Adj, Links.unlink]
    simpa [Path] using hh
  · exact hr.2.sublist (((sublist_cons_self n v).append_left u).cons_cons l)

section

variable (hr : h.Rings dom anchor nodes)
include hr

theorem Rings.link (hi : i ∈ dom) (hx : nodes i = u ++ v)
    (hn : ∀ j ∈ dom, n ∉ anchor j :: nodes j) (ha : (anchor i :: u).getLast? = some a)
    (hb : (v ++ [anchor i]).head? = some b) :
    (h.link a n b).Rings dom anchor (update nodes i (u ++ n :: v)) := by
  have ham : a ∈ anchor i :: nodes i := by
    rw [hx]
    exact mem_append_left v (mem_of_mem_getLast? ha)
  have hbm : b ∈ anchor i :: nodes i := by
    have hm := mem_of_mem_head? hb
    simp only [mem_append, mem_cons, hx] at hm ⊢
    tauto
  have hsub : ∀ x ∈ anchor i :: (u ++ n :: v), x = n ∨ x ∈ anchor i :: nodes i := by
    intro x hm
    simp only [mem_cons, mem_append, hx] at hm ⊢
    tauto
  constructor
  · intro j hj
    by_cases hji : j = i
    · subst hji
      rw [update_self]
      exact IsRing.link (hx ▸ hr.ring j hj) (hx ▸ hn j hj) ha hb
    · rw [update_of_ne hji]
      have haj := hr.not_mem_of_ne hi hj hji ham
      have hbj := hr.not_mem_of_ne hi hj hji hbm
      refine (hr.ring j hj).frame ?_ ?_
      · exact fun x hm => link_next_of_ne (fun he => hn j hj (he ▸ hm)) (fun he => haj (he ▸ hm))
      · exact fun x hm => link_prev_of_ne (fun he => hn j hj (he ▸ hm)) (fun he => hbj (he ▸ hm))
  · intro j hj k hk hjk x hxj hxk
    by_cases hji : j = i
    · subst hji
      rw [update_self] at hxj
      rw [update_of_ne hjk.symm] at hxk
      rcases hsub x hxj with rfl | hm
      · exact hn k hk hxk
      · exact hr.not_mem_of_ne hj hk hjk.symm hm hxk
    · rw [update_of_ne hji] at hxj
      by_cases hki : k = i
      · subst hki
        rw [update_self] at hxk
        rcases hsub x hxk with rfl | hm
        · exact hn j hj hxj
        · exact hr.not_mem_of_ne hk hj hjk hm hxj
      · rw [update_of_ne hki] at hxk
        exact hr.not_mem_of_ne hj hk (Ne.symm hjk) hxj hxk

theorem Rings.unlink (hi : i ∈ dom) (hx : nodes i = u ++ n :: v) :
    (h.unlink n).Rings dom anchor (update nodes i (u ++ v)) := by
  have hri := hr.ring i hi
  rw [hx] at hri
  have ham : h.prev n ∈ anchor i :: nodes i := by
    rw [hx]
    exact mem_append_left (n :: v) (mem_of_mem_getLast? hri.prev_mem)
  have hbm : h.next n ∈ anchor i :: nodes i := by
    have hm := mem_of_mem_head? hri.next_mem
    simp only [mem_append, mem_cons, hx] at hm ⊢
    tauto
  have hsub : ∀ j, ∀ x ∈ anchor j :: update nodes i (u ++ v) j, x ∈ anchor j :: nodes j := by
    intro j x hm
    by_cases hji : j = i
    · subst hji
      rw [update_self] at hm
      simp only [mem_cons, mem_append, hx] at hm ⊢
      tauto
    · rwa [update_of_ne hji] at hm
  constructor
  · intro j hj
    by_cases hji : j = i
    · subst hji
      rw [update_self]
      exact hri.unlink
    · rw [update_of_ne hji]
      have haj := hr.not_mem_of_ne hi hj hji ham
      have hbj := hr.not_mem_of_ne hi hj hji hbm
      refine (hr.ring j hj).frame ?_ ?_
      · exact fun x hm => unlink_next_of_ne (fun he => haj (he ▸ hm))
      · exact fun x hm => unlink_prev_of_ne (fun he => hbj (he ▸ hm))
  · intro j hj k hk hjk
    exact fun x hxj hxk => hr.not_mem_of_ne hj hk (Ne.symm hjk) (hsub j x hxj) (hsub k x hxk)

theorem Rings.link_last (hi : i ∈ dom) (hn : ∀ j ∈ dom, n ∉ anchor j :: nodes j) :
    (h.link (h.prev (anchor i)) n (anchor i)).Rings dom anchor (update nodes i (nodes i ++ [n])) :=
  hr.link hi (v := []) (by simp) hn (hr.ring i hi).prev_anchor rfl

theorem Rings.link_first (hi : i ∈ dom) (hn : ∀ j ∈ dom, n ∉ anchor j :: nodes j) :
    (h.link (anchor i) n (h.next (anchor i))).Rings dom anchor (update nodes i (n :: nodes i)) :=
  hr.link hi (u := []) rfl hn rfl (hr.ring i hi).next_anchor

theorem Rings.link_before (hi : i ∈ dom)
    (hx : nodes i = u ++ b :: v) (hn : ∀ j ∈ dom, n ∉ anchor j :: nodes j) :
    (h.link (h.prev b) n b).Rings dom anchor (update nodes i (u ++ n :: b :: v)) :=
  hr.link hi hx hn (IsRing.prev_mem (hx ▸ hr.ring i hi)) rfl

end

end Updates

end Links

end Zephyr
