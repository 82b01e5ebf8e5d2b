import Zephyr.Links

/-! The doubly linked lists of `misc/dlist.h`. A list head is itself a node: its `head` is
the `next` pointer and its `tail` the `prev` pointer, so an empty list points at itself. -/

namespace Zephyr

open Links Function List

section Operations

variable {A : Type*} [DecidableEq A]

section

variable (h : Links A) (list : A)

def sysDlistInit : Links A := (h.setNext list list).setPrev list list

def sysDlistIsTail (list node : A) : Bool := h.prev list = node

def sysDlistIsEmpty : Bool := h.next list = list

def sysDlistPeekHead : Option A :=
  if sysDlistIsEmpty h list then none else some (h.next list)

def sysDlistPeekTail : Option A :=
  if sysDlistIsEmpty h list then none else some (h.prev list)

def sysDlistPeekNextNoCheck (list node : A) : Option A :=
  if node = h.prev list then none else some (h.next node)

def sysDlistPeekNext (node : Option A) : Option A :=
  node.bind (sysDlistPeekNextNoCheck h list)

def sysDlistAppend (list node : A) : Links A :=
  let h := h.setNext node list
  let h := h.setPrev node (h.prev list)
  let h := h.setNext (h.prev list) node
  h.setPrev list node

def sysDlistPrepend (list node : A) : Links A :=
  let h := h.setNext node (h.next list)
  let h := h.setPrev node list
  let h := h.setPrev (h.next list) node
  h.setNext list node

def sysDlistInsertBefore (insertPoint node : A) : Links A :=
  let h := h.setPrev node (h.prev insertPoint)
  let h := h.setNext node insertPoint
  let h := h.setNext (h.prev insertPoint) node
  h.setPrev insertPoint node

def sysDlistRemove (node : A) : Links A :=
  let h := h.setNext (h.prev node) (h.next node)
  h.setPrev (h.next node) (h.prev node)

def sysDlistGet : Option A × Links A :=
  if sysDlistIsEmpty h list then (none, h) else (some (h.next list), sysDlistRemove h (h.next list))

end

end Operations

section Specs

variable {A I : Type*} [DecidableEq I] {h : Links A} {l n b : A} {xs u v : List A}
  {dom : Set I} {anchor : I → A} {nodes : I → List A} {i : I}

theorem isRing_nil_iff : h.IsRing l [] ↔ h.next l = l ∧ h.prev l = l := by
  simp [IsRing, Links.Path, Adj]

theorem mem_ring_of_path {h' : Links A} {p : List A} {a : A} (hp : h.Path (a :: p))
    (hn : ∀ x ∈ (a :: p).dropLast, h'.next x = h.next x) (hr : h'.IsRing l xs) (ha : a ∈ l :: xs) :
    ∀ x ∈ a :: p, x ∈ l :: xs := by
  induction p generalizing a with
  | nil => simpa using ha
  | cons b p ih =>
    obtain ⟨hab, hp⟩ := isChain_cons_cons.mp hp
    have hb : b ∈ l :: xs := by
      rw [← hab.1, ← hn a (by simp)]
      exact (hr.next_closed ha).1
    intro x hx
    rcases mem_cons.mp hx with rfl | hx
    · exact ha
    · exact ih hp (fun y hy => hn y (by simp [hy])) hb x hx

variable [DecidableEq A]

theorem sysDlistAppend_eq (hn : n ≠ l) : sysDlistAppend h l n = h.link (h.prev l) n l := by
  simp [sysDlistAppend, link, setNext, setPrev, update_of_ne hn.symm]

theorem sysDlistPrepend_eq (hn : n ≠ l) : sysDlistPrepend h l n = h.link l n (h.next l) := by
  simp [sysDlistPrepend, link, setNext, setPrev, update_of_ne hn.symm]

theorem sysDlistInsertBefore_eq (hn : n ≠ b) :
    sysDlistInsertBefore h b n = h.link (h.prev b) n b := by
  simp [sysDlistInsertBefore, link, setNext, setPrev, update_of_ne hn.symm]

theorem sysDlistRemove_eq (h : Links A) (n : A) : sysDlistRemove h n = h.unlink n := by
  by_cases hn : n = h.prev n
  · simp only [sysDlistRemove, unlink, setNext, setPrev]
    rw [← hn, update_self]
  · simp [sysDlistRemove, unlink, setNext, setPrev, update_of_ne hn]

theorem sysDlistIsEmpty_iff (hr : h.IsRing l xs) : sysDlistIsEmpty h l = true ↔ xs = [] := by
  have hh := hr.next_anchor
  cases xs with
  | nil => simpa [sysDlistIsEmpty, eq_comm] using hh
  | cons x xs =>
    have hx : x = h.next l := by simpa using hh
    have hl : x ≠ l := fun he => hr.anchor_not_mem (by simp [he])
    simp [sysDlistIsEmpty, ← hx, hl]

theorem sysDlistPeekHead_ring (hr : h.IsRing l xs) : sysDlistPeekHead h l = xs.head? := by
  have hh := hr.next_anchor
  unfold sysDlistPeekHead
  split
  · rename_i he
    simp [(sysDlistIsEmpty_iff hr).mp he]
  · rename_i he
    cases xs with
    | nil => exact absurd ((sysDlistIsEmpty_iff hr).mpr rfl) he
    | cons x xs => simpa using hh.symm

theorem sysDlistIsTail_iff (hr : h.IsRing l xs) (hn : n ≠ l) :
    sysDlistIsTail h l n = true ↔ xs.getLast? = some n := by
  have hh := hr.prev_anchor
  simp only [sysDlistIsTail]
  cases xs with
  | nil =>
    have hl : l = h.prev l := by simpa using hh
    simp [← hl, hn.symm]
  | cons x xs =>
    rw [getLast?_cons_cons] at hh
    simp [hh]

theorem sysDlistPeekTail_ring (hr : h.IsRing l xs) : sysDlistPeekTail h l = xs.getLast? := by
  have hh := hr.prev_anchor
  unfold sysDlistPeekTail
  split
  · rename_i he
    simp [(sysDlistIsEmpty_iff hr).mp he]
  · rename_i he
    cases xs with
    | nil => exact absurd ((sysDlistIsEmpty_iff hr).mpr rfl) he
    | cons x xs => rw [← hh, getLast?_cons_cons]

theorem sysDlistPeekNextNoCheck_ring (hr : h.IsRing l (u ++ n :: v)) :
    sysDlistPeekNextNoCheck h l n = v.head? := by
  have hv := hr.prev_anchor
  have hx := hr.next_mem
  cases v with
  | nil =>
    have hn : n = h.prev l := by
      rw [← cons_append, getLast?_concat] at hv
      exact Option.some.inj hv
    simp [sysDlistPeekNextNoCheck, ← hn]
  | cons b v =>
    have hn : n ≠ h.prev l := by
      rw [← cons_append, getLast?_append_cons, getLast?_cons_cons] at hv
      have hm := mem_of_mem_getLast? hv
      rintro rfl
      have hd := (nodup_append.mp hr.nodup).2.1
      exact hd.notMem hm
    have hb : b = h.next n := by simpa using hx
    simp [sysDlistPeekNextNoCheck, hn, ← hb]

theorem sysDlistPeekNext_ring (hr : h.IsRing l (u ++ n :: v)) :
    sysDlistPeekNext h l (some n) = v.head? := sysDlistPeekNextNoCheck_ring hr

theorem sysDlistPeekNext_of_not_tail (hn : ¬ sysDlistIsTail h l n = true) :
    sysDlistPeekNext h l (some n) = some (h.next n) := by
  have hne : n ≠ h.prev l := fun he => hn (by simp [sysDlistIsTail, he])
  simp [sysDlistPeekNext, sysDlistPeekNextNoCheck, hne]

theorem sysDlistGet_nil (hr : h.IsRing l []) : sysDlistGet h l = (none, h) := by
  simp [sysDlistGet, (sysDlistIsEmpty_iff hr).mpr rfl]

theorem sysDlistGet_cons (hr : h.IsRing l (n :: xs)) :
    sysDlistGet h l = (some n, sysDlistRemove h n) := by
  have he : sysDlistIsEmpty h l ≠ true := fun he => by simp [sysDlistIsEmpty_iff hr] at he
  have hn : n = h.next l := by simpa using hr.next_anchor
  simp [sysDlistGet, he, ← hn]

theorem sysDlistAppend_rings (hr : h.Rings dom anchor nodes) (hi : i ∈ dom)
    (hn : ∀ j ∈ dom, n ∉ anchor j :: nodes j) :
    (sysDlistAppend h (anchor i) n).Rings dom anchor (update nodes i (nodes i ++ [n])) := by
  rw [sysDlistAppend_eq (fun he => hn i hi (by simp [he]))]
  exact hr.link_last hi hn

theorem sysDlistPrepend_rings (hr : h.Rings dom anchor nodes) (hi : i ∈ dom)
    (hn : ∀ j ∈ dom, n ∉ anchor j :: nodes j) :
    (sysDlistPrepend h (anchor i) n).Rings dom anchor (update nodes i (n :: nodes i)) := by
  rw [sysDlistPrepend_eq (fun he => hn i hi (by simp [he]))]
  exact hr.link_first hi hn

theorem sysDlistInsertBefore_rings (hr : h.Rings dom anchor nodes) (hi : i ∈ dom)
    (hx : nodes i = u ++ b :: v) (hn : ∀ j ∈ dom, n ∉ anchor j :: nodes j) :
    (sysDlistInsertBefore h b n).Rings dom anchor (update nodes i (u ++ n :: b :: v)) := by
  rw [sysDlistInsertBefore_eq (fun he => hn i hi (by simp [he, hx]))]
  exact hr.link_before hi hx hn

theorem not_isRing_append (hr : h.IsRing l xs) (hn : n ∈ xs) (ys : List A) :
    ¬ (sysDlistAppend h l n).IsRing l ys := by
  intro hy
  have hnl : n ≠ l := fun he => hr.anchor_not_mem (he ▸ hn)
  rw [sysDlistAppend_eq hnl] at hy
  obtain ⟨u, v, rfl⟩ := append_of_mem hn
  have hlast : (l :: ys).getLast? = some n := by
    rw [hy.prev_anchor]
    simp [link]
  by_cases hz : h.prev l = n
  · -- the node was the tail: it now points at itself
    have hnext := (IsRing.adj (v := []) (b := l) (by simpa using hy) hlast rfl).1
    simp [link, hz] at hnext
    exact hnl hnext
  · -- otherwise it is still met after `u`, but points back at the old tail
    obtain ⟨a, ha⟩ := exists_getLast?_cons l u
    have hv : h.prev l ∈ v := by
      have := hr.prev_anchor
      rw [← cons_append, getLast?_append_cons] at this
      rcases mem_cons.mp (mem_of_mem_getLast? this) with he | hm
      · exact absurd he hz
      · exact hm
    have hleft : h.Path (l :: u) := hr.cut.1
    have hoff : ∀ x ∈ l :: u, x ≠ n ∧ x ≠ h.prev l := by
      intro x hx
      have hxv := hr.cut.2.2.2.2.1 x hx
      exact ⟨fun he => hxv (by simp [he]), fun he => hxv (by simp [he, hv])⟩
    have hmem : a ∈ l :: ys := by
      refine mem_ring_of_path hleft ?_ hy (by simp) a (mem_of_mem_getLast? ha)
      intro x hx
      have := hoff x ((dropLast_sublist _).subset hx)
      exact link_next_of_ne this.1 this.2
    have hau := hoff a (mem_of_mem_getLast? ha)
    have hnext : (h.link (h.prev l) n l).next a = n := by
      rw [link_next_of_ne hau.1 hau.2]
      exact (hr.adj ha rfl).1
    have hprev := (hy.next_closed hmem).2
    rw [hnext] at hprev
    simp [link, update_of_ne hnl] at hprev
    exact hau.2 hprev.symm

theorem sysDlistRemove_eq_self (hn : h.Adj (h.prev n) (h.next n)) : sysDlistRemove h n = h := by
  rw [sysDlistRemove_eq, unlink_eq_self hn]

theorem not_isRing_remove (hr : h.IsRing l xs) (hp : h.prev n = l)
    (hn : ¬ h.Adj (h.prev n) (h.next n)) {ys : List A} (hy : ∀ x, x ∈ ys ↔ x ∈ xs) :
    ¬ (sysDlistRemove h n).IsRing l ys := by
  rw [sysDlistRemove_eq]
  rw [hp] at hn
  intro hr'
  have hnext : (h.unlink n).next l = h.next n := by simp [unlink, hp]
  have hhead := hr'.next_anchor
  rw [hnext] at hhead
  have hm := mem_append.mp (mem_of_mem_head? hhead)
  by_cases hl : h.next n = l
  · -- the list looks empty now
    have hys : ys = [] := by
      cases ys with
      | nil => rfl
      | cons y ys =>
        have : y = l := by simpa [hl] using hhead
        exact absurd (by simp [this]) hr'.anchor_not_mem
    have hxs : xs = [] := eq_nil_iff_forall_not_mem.mpr fun x hx => by
      simpa [hys] using (hy x).mpr hx
    rw [hl] at hn
    exact hn (isRing_nil_iff.mp (hxs ▸ hr))
  · have hmx : h.next n ∈ xs := (hy _).mp (hm.resolve_right (by simpa using hl))
    obtain ⟨u, v, rfl⟩ := append_of_mem hmx
    obtain ⟨a, ha⟩ := exists_getLast?_cons l u
    have hadj := hr.adj ha rfl
    rcases mem_cons.mp (mem_of_mem_getLast? ha) with rfl | hau
    · exact hn hadj
    · -- the node before the successor is passed over
      have hal : a ≠ l := fun he => hr.anchor_not_mem (by simp [← he, hau])
      have hay : a ∈ l :: ys := mem_cons_of_mem l ((hy a).mpr (by simp [hau]))
      have hna : (h.unlink n).next a = h.next n := by
        rw [unlink_next_of_ne (by rw [hp]; exact hal), hadj.1]
      have hprev := (hr'.next_closed hay).2
      rw [hna] at hprev
      simp [unlink, hp] at hprev
      exact hal hprev.symm

theorem sysDlistRemove_rings (hr : h.Rings dom anchor nodes) (hi : i ∈ dom)
    (hx : nodes i = u ++ n :: v) :
    (sysDlistRemove h n).Rings dom anchor (update nodes i (u ++ v)) := by
  rw [sysDlistRemove_eq]
  exact hr.unlink hi hx

end Specs

end Zephyr
