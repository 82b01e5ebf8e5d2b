import Mathlib

/-! Spans of a line of cells. A list of spans tiles a range when it covers every cell of
the range once and no other cell, which is how splitting and joining spans is followed. -/

namespace Zephyr

open List Function

structure Span where
  start : Nat
  size : Nat
deriving DecidableEq, Repr

def Span.Holds (b : Span) (x : Nat) : Prop := b.start ≤ x ∧ x < b.start + b.size

instance (b : Span) (x : Nat) : Decidable (b.Holds x) := inferInstanceAs (Decidable (_ ∧ _))

def Span.Apart (b c : Span) : Prop := b.start + b.size ≤ c.start ∨ c.start + c.size ≤ b.start

/-- The spans are pairwise apart and hold exactly the cells of `[lo, hi)`. -/
def Tiles (lo hi : Nat) (bs : List Span) : Prop :=
  bs.Pairwise Span.Apart ∧ ∀ x, (∃ b ∈ bs, b.Holds x) ↔ lo ≤ x ∧ x < hi

def cover (bs : List Span) (x : Nat) : Nat := bs.countP (fun b => b.Holds x)

@[simp] theorem cover_nil (x : Nat) : cover [] x = 0 := rfl

@[simp] theorem cover_append (bs cs : List Span) (x : Nat) :
    cover (bs ++ cs) x = cover bs x + cover cs x := countP_append

theorem cover_cons (b : Span) (bs : List Span) (x : Nat) :
    cover (b :: bs) x = cover bs x + if b.Holds x then 1 else 0 := by
  simp [cover, countP_cons]

variable {bs : List Span}

theorem cover_pos_iff {x : Nat} : 0 < cover bs x ↔ ∃ b ∈ bs, b.Holds x := by
  simp [cover]

theorem Span.holds_start {b : Span} (hb : 0 < b.size) : b.Holds b.start := by
  unfold Holds
  omega

theorem exists_common_of_not_apart {b c : Span} (hb : 0 < b.size) (hc : 0 < c.size)
    (h : ¬ b.Apart c) : ∃ x, b.Holds x ∧ c.Holds x := by
  simp only [Span.Apart] at h
  refine ⟨max b.start c.start, ?_, ?_⟩ <;> unfold Span.Holds <;> omega

theorem pairwise_apart_of_cover_le (hpos : ∀ b ∈ bs, 0 < b.size)
    (h : ∀ x, cover bs x ≤ 1) : bs.Pairwise Span.Apart := by
  induction bs with
  | nil => exact .nil
  | cons b bs ih =>
    refine pairwise_cons.mpr ⟨?_, ih (fun c hc => hpos c (by simp [hc])) ?_⟩
    · intro c hc
      by_contra hn
      obtain ⟨x, hbx, hcx⟩ :=
        exists_common_of_not_apart (hpos b (by simp)) (hpos c (by simp [hc])) hn
      have hx := h x
      have hp := cover_pos_iff.mpr ⟨c, hc, hcx⟩
      rw [cover_cons, if_pos hbx] at hx
      omega
    · intro x
      have hx := h x
      rw [cover_cons] at hx
      omega

theorem Tiles.of_cover {lo hi : Nat} (hpos : ∀ b ∈ bs, 0 < b.size)
    (h : ∀ x, cover bs x = if lo ≤ x ∧ x < hi then 1 else 0) : Tiles lo hi bs := by
  constructor
  · apply pairwise_apart_of_cover_le hpos
    intro x
    rw [h x]
    split_ifs <;> omega
  · intro x
    rw [← cover_pos_iff, h x]
    split_ifs with hx <;> simp [hx]

theorem cover_consecutive (lo s n x : Nat) : cover ((range n).map (fun i => ⟨lo + s * i, s⟩)) x =
      if lo ≤ x ∧ x < lo + s * n then 1 else 0 := by
  induction n with
  | zero => simp
  | succ n ih =>
    rw [range_succ, map_append, cover_append, map_singleton, cover_cons, cover_nil]
    unfold Span.Holds
    grind

theorem cover_flatMap_update {n l : Nat} (hl : l < n) (f : Nat → List Span) (bs : List Span)
    (x : Nat) :
    cover ((range n).flatMap (update f l bs)) x + cover (f l) x =
      cover ((range n).flatMap f) x + cover bs x := by
  induction n with
  | zero => omega
  | succ n ih =>
    simp only [range_succ, flatMap_append, cover_append, flatMap_cons, flatMap_nil]
    by_cases hn : l = n
    · subst hn
      have he : (range l).flatMap (update f l bs) = (range l).flatMap f := by
        apply flatMap_congr
        intro i hi
        rw [update_of_ne (by have := mem_range.mp hi; omega)]
      rw [he, update_self]
      omega
    · rw [update_of_ne (Ne.symm hn)]
      omega

end Zephyr
