import Mathlib

/-! The singly linked lists of `misc/slist.h`, over the `next` words of all nodes there are. -/

namespace Zephyr

open Function List

section Operations

variable {A : Type*}

/-- A list header and the `next` word of every node, on the list or not. -/
structure Slist (A : Type*) where
  next : A → Option A
  head : Option A
  tail : Option A

def sysSlistInit (l : Slist A) : Slist A := { l with head := none, tail := none }

def sysSlistIsEmpty (l : Slist A) : Bool := l.head.isNone

variable [DecidableEq A]

def sysSlistPrepend (l : Slist A) (node : A) : Slist A :=
  let l := { l with next := update l.next node l.head, head := some node }
  if l.tail = none then { l with tail := l.head } else l

def sysSlistAppend (l : Slist A) (node : A) : Slist A :=
  let l := { l with next := update l.next node none }
  match l.tail with
  | none => { l with tail := some node, head := some node }
  | some tail => { l with next := update l.next tail (some node), tail := some node }

def sysSlistAppendList (l : Slist A) (head tail : A) : Slist A :=
  match l.tail with
  | none => { l with head := some head, tail := some tail }
  | some last => { l with next := update l.next last (some head), tail := some tail }

def sysSlistInsert (l : Slist A) (prev : Option A) (node : A) : Slist A :=
  match prev with
  | none => sysSlistPrepend l node
  | some prev =>
    match l.next prev with
    | none => sysSlistAppend l node
    | some n =>
      { l with next := update (update l.next node (some n)) prev (some node) }

def sysSlistGet (l : Slist A) : Option A × Slist A :=
  match l.head with
  | none => (none, l)
  | some node =>
    let head := l.next node
    (some node, { l with head, tail := if l.tail = some node then head else l.tail })

def linked (next : A → Option A) : Option A → List A → Bool
  | p, [] => p = none
  | p, x :: xs => p = some x && linked next (next x) xs

end Operations

section Segments

variable {A : Type*} {next next' : A → Option A} {p q m : Option A} {xs ys u v : List A} {a : A}

/-- The nodes met from the pointer `p` on until the pointer `q`. -/
def Seg (next : A → Option A) : Option A → List A → Option A → Prop
  | p, [], q => p = q
  | p, x :: xs, q => p = some x ∧ Seg next (next x) xs q

theorem Seg.frame (h : Seg next p xs q) (hn : ∀ x ∈ xs, next' x = next x) : Seg next' p xs q := by
  induction xs generalizing p with
  | nil => exact h
  | cons x xs ih =>
    refine ⟨h.1, ?_⟩
    rw [hn x mem_cons_self]
    exact ih h.2 (fun y hy => hn y (mem_cons_of_mem x hy))

theorem Seg.unique (hx : Seg next p xs none) (hy : Seg next p ys none) : xs = ys := by
  induction xs generalizing p ys with
  | nil =>
    cases ys with
    | nil => rfl
    | cons y ys => exact absurd (hx.symm.trans hy.1) (by simp)
  | cons x xs ih =>
    cases ys with
    | nil => exact absurd (hx.1.symm.trans hy) (by simp)
    | cons y ys =>
      obtain rfl : x = y := Option.some.inj (hx.1.symm.trans hy.1)
      rw [ih hx.2 hy.2]

theorem seg_append : Seg next p (u ++ v) q ↔ ∃ m, Seg next p u m ∧ Seg next m v q := by
  induction u generalizing p with
  | nil => simp [Seg]
  | cons x u ih =>
    simp only [cons_append, Seg, ih, and_assoc]
    exact ⟨fun ⟨hp, m, hm⟩ => ⟨m, hp, hm⟩, fun ⟨m, hp, hm⟩ => ⟨hp, m, hm⟩⟩

theorem seg_concat : Seg next p (u ++ [a]) q ↔ Seg next p u (some a) ∧ next a = q := by
  rw [seg_append]
  constructor
  · rintro ⟨m, hu, rfl, ha⟩
    exact ⟨hu, ha⟩
  · rintro ⟨hu, ha⟩
    exact ⟨some a, hu, rfl, ha⟩

theorem seg_append_cons :
    Seg next p (u ++ a :: v) q ↔ Seg next p u (some a) ∧ Seg next (next a) v q := by
  rw [seg_append]
  constructor
  · rintro ⟨m, hu, rfl, ha⟩
    exact ⟨hu, ha⟩
  · rintro ⟨hu, ha⟩
    exact ⟨some a, hu, rfl, ha⟩

structure Slist.IsList (l : Slist A) (xs : List A) : Prop where
  seg : Seg l.next l.head xs none
  tail : l.tail = xs.getLast?
  nodup : xs.Nodup

variable {l : Slist A}

theorem Slist.IsList.unique (hx : l.IsList xs) (hy : l.IsList ys) : xs = ys :=
  hx.seg.unique hy.seg

theorem Slist.IsList.frame (h : l.IsList xs) (hn : ∀ x ∈ xs, next' x = l.next x) :
    Slist.IsList { l with next := next' } xs := ⟨h.seg.frame hn, h.tail, h.nodup⟩

theorem sysSlistInit_isList (l : Slist A) : (sysSlistInit l).IsList [] := ⟨rfl, rfl, .nil⟩

theorem sysSlistIsEmpty_iff (h : l.IsList xs) : sysSlistIsEmpty l = true ↔ xs = [] := by
  have hs := h.seg
  cases xs with
  | nil =>
    have hh : l.head = none := hs
    simp [sysSlistIsEmpty, hh]
  | cons x xs => simp [sysSlistIsEmpty, hs.1]

end Segments

section Specs

variable {A : Type*} [DecidableEq A] {l : Slist A} {xs ys u v : List A} {a n : A} {q : Option A}
  {next : A → Option A} {p : Option A}

theorem linked_iff : linked next p xs = true ↔ Seg next p xs none := by
  induction xs generalizing p with
  | nil => simp [linked, Seg]
  | cons x xs ih => simp [linked, Seg, ih]

theorem update_off (ha : a ∉ xs) : ∀ x ∈ xs, update next a q x = next x :=
  fun _ hx => update_of_ne (ne_of_mem_of_not_mem hx ha) _ _

theorem Seg.redirect (h : Seg next p u (some a))
    (ha : a ∉ u) : Seg (update next a q) p (u ++ [a]) q :=
  seg_concat.mpr ⟨h.frame (update_off ha), update_self _ _ _⟩

theorem Seg.cons (h : Seg next p xs q) (ha : a ∉ xs) :
    Seg (update next a p) (some a) (a :: xs) q := by
  refine ⟨rfl, ?_⟩
  rw [update_self]
  exact h.frame (update_off ha)

theorem sysSlistPrepend_isList (h : l.IsList xs) (hn : n ∉ xs) :
    (sysSlistPrepend l n).IsList (n :: xs) := by
  have hseg := h.seg.cons hn
  have hnd := nodup_cons.mpr ⟨hn, h.nodup⟩
  have ht := h.tail
  unfold sysSlistPrepend
  cases xs with
  | nil =>
    rw [if_pos (by simpa using ht)]
    exact ⟨hseg, rfl, hnd⟩
  | cons x xs =>
    rw [if_neg (by simp [ht])]
    exact ⟨hseg, by simpa using ht, hnd⟩

theorem sysSlistAppendList_isList (h : l.IsList xs) {head tail : A}
    (hy : Seg l.next (some head) ys none) (ht : ys.getLast? = some tail)
    (hnd : (xs ++ ys).Nodup) : (sysSlistAppendList l head tail).IsList (xs ++ ys) := by
  have hlast : (xs ++ ys).getLast? = some tail := by simp [ht]
  unfold sysSlistAppendList
  rcases eq_nil_or_concat' xs with rfl | ⟨u, a, rfl⟩
  · have htail : l.tail = none := h.tail
    rw [htail]
    exact ⟨hy, ht.symm, hnd⟩
  · have htail : l.tail = some a := by simpa using h.tail
    rw [htail]
    obtain ⟨hu, -⟩ := seg_concat.mp h.seg
    have hau : a ∉ u := by
      have := h.nodup
      rw [nodup_append] at this
      exact fun hm => this.2.2 a hm a (by simp) rfl
    have hay : a ∉ ys := by
      rw [nodup_append] at hnd
      exact fun hm => hnd.2.2 a (by simp) a hm rfl
    exact ⟨seg_append.mpr ⟨some head, hu.redirect hau, hy.frame (update_off hay)⟩, hlast.symm, hnd⟩

theorem sysSlistAppendList_next (h : l.IsList xs) (head tail : A) (hn : n ∉ xs) :
    (sysSlistAppendList l head tail).next n = l.next n := by
  unfold sysSlistAppendList
  cases htail : l.tail with
  | none => rfl
  | some last =>
    have hlast : last ∈ xs := mem_of_getLast? (h.tail ▸ htail)
    exact update_of_ne (fun heq : n = last => hn (heq ▸ hlast)) ..

theorem sysSlistAppend_isList (h : l.IsList xs) (hn : n ∉ xs) :
    (sysSlistAppend l n).IsList (xs ++ [n]) := by
  refine sysSlistAppendList_isList (h.frame (update_off hn)) ⟨rfl, update_self _ _ _⟩ rfl ?_
  exact h.nodup.append (by simp) (by simpa using hn)

theorem sysSlistInsert_isList (h : l.IsList (u ++ a :: v)) (hn : n ∉ u ++ a :: v) :
    (sysSlistInsert l (some a) n).IsList (u ++ a :: n :: v) := by
  obtain ⟨hu, hv⟩ := seg_append_cons.mp h.seg
  cases v with
  | nil =>
    have hna : l.next a = none := hv
    simp only [sysSlistInsert, hna]
    simpa using sysSlistAppend_isList h hn
  | cons b v =>
    have hb : l.next a = some b := hv.1
    have hnd := nodup_append.mp h.nodup
    have hau : a ∉ u := fun hm => hnd.2.2 a hm a (by simp) rfl
    have hav := hnd.2.1.notMem
    have hna : n ≠ a := fun he => hn (by simp [he])
    simp only [sysSlistInsert, hb]
    refine ⟨?_, ?_, ?_⟩
    · have hnu : n ∉ u := fun hm => hn (by simp [hm])
      have hnv : n ∉ b :: v := fun hm => hn (mem_append_right u (mem_cons_of_mem a hm))
      have hu' := (hu.frame (update_off (q := some b) hnu)).redirect (q := some n) hau
      have hv' : Seg (update (update l.next n (some b)) a (some n)) (some n)
          (n :: b :: v) none := by
        refine ⟨rfl, ?_⟩
        rw [update_of_ne hna, update_self, ← hb]
        refine hv.frame fun x hx => ?_
        rw [update_off hav x hx, update_off hnv x hx]
      simpa using seg_append.mpr ⟨_, hu', hv'⟩
    · have := h.tail
      simpa using this
    · have hp : (u ++ a :: n :: b :: v).Perm (n :: (u ++ a :: b :: v)) := by
        rw [show u ++ a :: n :: b :: v = (u ++ [a]) ++ n :: (b :: v) by simp]
        exact perm_middle.trans (by simp)
      exact hp.nodup_iff.mpr (nodup_cons.mpr ⟨hn, h.nodup⟩)

theorem sysSlistInsert_stale (h : l.IsList xs) (ha : a ∉ xs) (hn : n ∉ xs)
    (hs : l.next a ≠ none) : (sysSlistInsert l (some a) n).IsList xs := by
  obtain ⟨b, hb⟩ := Option.ne_none_iff_exists'.mp hs
  simp only [sysSlistInsert, hb]
  refine h.frame fun x hx => ?_
  rw [update_off ha x hx, update_off hn x hx]

theorem sysSlistInsert_cases (h : l.IsList xs) (hn : n ∉ xs) (prev : Option A) :
    ∃ ys, (sysSlistInsert l prev n).IsList ys ∧ ys.length ≤ xs.length + 1 ∧ ys ⊆ n :: xs := by
  cases prev with
  | none => exact ⟨_, sysSlistPrepend_isList h hn, Nat.le_refl _, List.Subset.refl _⟩
  | some a =>
    by_cases ha : a ∈ xs
    · obtain ⟨u, v, rfl⟩ := append_of_mem ha
      refine ⟨_, sysSlistInsert_isList h hn, by simp; omega, fun x hx => ?_⟩
      simp only [mem_append, mem_cons] at hx ⊢
      tauto
    · by_cases hs : l.next a = none
      · refine ⟨xs ++ [n], ?_, by simp, fun x hx => ?_⟩
        · simp only [sysSlistInsert, hs]
          exact sysSlistAppend_isList h hn
        · simpa [or_comm] using hx
      · exact ⟨xs, sysSlistInsert_stale h ha hn hs, Nat.le_succ _, subset_cons_self _ _⟩

theorem sysSlistGet_nil (h : l.IsList []) : sysSlistGet l = (none, l) := by
  have hh : l.head = none := h.seg
  simp [sysSlistGet, hh]

theorem sysSlistGet_cons (h : l.IsList (a :: xs)) :
    (sysSlistGet l).1 = some a ∧ (sysSlistGet l).2.IsList xs ∧ (sysSlistGet l).2.next = l.next := by
  have hh : l.head = some a := h.seg.1
  have hnd := nodup_cons.mp h.nodup
  simp only [sysSlistGet, hh, and_true, true_and]
  refine ⟨h.seg.2, ?_, hnd.2⟩
  cases xs with
  | nil =>
    have hna : l.next a = none := h.seg.2
    have ht : l.tail = some a := h.tail
    simp [ht, hna]
  | cons b xs =>
    have ht : l.tail = (b :: xs).getLast? := by simpa using h.tail
    have hne : l.tail ≠ some a := fun he =>
      hnd.1 (mem_of_mem_getLast? (ht.symm.trans he))
    rw [if_neg hne, ht]

end Specs

end Zephyr
