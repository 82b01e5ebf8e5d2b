import Mathlib

/-! Pieces of a list, each with the position of its first element. They assemble a list when they
place its elements, each of them once, and nothing else. -/

namespace Zephyr

open List

variable {A : Type*} {pieces : List (Nat × List A)} {d e : List A}

def pieceAt (i : Nat) (p : Nat × List A) : Option A := if p.1 ≤ i then p.2[i - p.1]? else none

def placedAt (pieces : List (Nat × List A)) (i : Nat) : List A := pieces.filterMap (pieceAt i)

def Assembles (pieces : List (Nat × List A)) (whole : List A) : Prop :=
  ∀ i, placedAt pieces i = whole[i]?.toList

variable {i : Nat}

theorem Assembles.exists_piece (h : Assembles pieces d) (hi : i < d.length) :
    ∃ p ∈ pieces, p.1 ≤ i ∧ i < p.1 + p.2.length := by
  have hplaced : d[i] ∈ placedAt pieces i := by
    rw [h i, getElem?_eq_getElem hi]
    exact mem_singleton_self _
  obtain ⟨p, hp, hat⟩ := mem_filterMap.mp hplaced
  unfold pieceAt at hat
  split_ifs at hat with hle
  obtain ⟨hlt, -⟩ := List.getElem?_eq_some_iff.mp hat
  exact ⟨p, hp, hle, by omega⟩

theorem assembles_nil : Assembles ([] : List (Nat × List A)) [] := fun _ => rfl

theorem placedAt_cons (p : Nat × List A) (i : Nat) :
    placedAt (p :: pieces) i = (pieceAt i p).toList ++ placedAt pieces i := by
  unfold placedAt
  cases hp : pieceAt i p <;> simp [hp]

variable {p : Nat × List A} {b : Nat}

theorem pieceAt_of_lt (h : i < p.2.length) : pieceAt (p.1 + i) p = some p.2[i] := by
  rw [pieceAt, if_pos (Nat.le_add_right ..), Nat.add_sub_cancel_left, getElem?_eq_getElem h]

theorem pieceAt_eq_none (h : i < p.1 ∨ p.1 + p.2.length ≤ i) : pieceAt i p = none := by
  unfold pieceAt
  split_ifs
  · exact getElem?_eq_none (by omega)
  · rfl

theorem placedAt_eq_nil_iff :
    placedAt pieces i = [] ↔ ∀ p ∈ pieces, i < p.1 ∨ p.1 + p.2.length ≤ i := by
  refine filterMap_eq_nil_iff.trans (forall₂_congr fun p _ => ⟨fun h => ?_, pieceAt_eq_none⟩)
  by_contra hin
  have hp := pieceAt_of_lt (p := p) (i := i - p.1) (by omega)
  rw [Nat.add_sub_cancel' (by omega), h] at hp
  exact nomatch hp

theorem Assembles.concat (h : Assembles pieces d) :
    Assembles (pieces ++ [(d.length, e)]) (d ++ e) := by
  intro i
  have hone : placedAt [(d.length, e)] i = (pieceAt i (d.length, e)).toList := by
    rw [placedAt_cons, placedAt, filterMap_nil, append_nil]
  rw [placedAt, filterMap_append, ← placedAt, ← placedAt, h i, hone, pieceAt]
  split_ifs with hle
  · rw [getElem?_eq_none hle, getElem?_append_right hle, Option.toList_none, nil_append]
  · rw [getElem?_append_left (by simpa using hle), Option.toList_none, append_nil]

def Contiguous : Nat → List (Nat × List A) → Prop
  | _, [] => True
  | b, p :: pieces => p.1 = b ∧ Contiguous (b + p.2.length) pieces

theorem contiguous_concat : Contiguous b (pieces ++ [p]) ↔
    Contiguous b pieces ∧ p.1 = b + (pieces.map Prod.snd).flatten.length := by
  induction pieces generalizing b with
  | nil => simp [Contiguous]
  | cons q pieces ih => simp [Contiguous, ih, Nat.add_assoc, and_assoc]

theorem Contiguous.assembles (h : Contiguous 0 pieces) :
    Assembles pieces (pieces.map Prod.snd).flatten := by
  induction pieces using reverseRecOn with
  | nil => exact assembles_nil
  | append_singleton pieces p ih =>
    obtain ⟨hpieces, hp⟩ := contiguous_concat.mp h
    have hconcat := (ih hpieces).concat (e := p.2)
    rw [Nat.zero_add] at hp
    rw [map_append, flatten_append, map_singleton, flatten_singleton]
    rwa [← hp] at hconcat

theorem fst_eq_of_placedAt (hp : p.2 ≠ [])
    (hb : ∀ q ∈ p :: pieces, b ≤ q.1) (hlt : ∀ q ∈ pieces, p.1 < q.1)
    (h : ∀ i, placedAt (p :: pieces) (b + i) = d[i]?.toList) : p.1 = b := by
  have hlen := length_pos_of_ne_nil hp
  have hle := hb p mem_cons_self
  by_contra hpb
  have hnone : placedAt (p :: pieces) b = [] := by
    refine placedAt_eq_nil_iff.mpr (forall_mem_cons.mpr ⟨.inl (by omega), ?_⟩)
    intro q hq
    have := hlt q hq
    omega
  have h0 := h 0
  rw [Nat.add_zero, hnone] at h0
  obtain rfl : d = [] := by
    cases d with
    | nil => rfl
    | cons x d => exact nomatch h0
  have hplaced := h (p.1 - b)
  have := placedAt_eq_nil_iff.mp hplaced p mem_cons_self
  omega

theorem head_of_placedAt (h : ∀ i, placedAt (p :: pieces) (p.1 + i) = d[i]?.toList) :
    d.take p.2.length = p.2 ∧ ∀ i < p.2.length, placedAt pieces (p.1 + i) = [] := by
  have hhead : ∀ i (hi : i < p.2.length), d[i]? = some p.2[i] ∧ placedAt pieces (p.1 + i) = [] := by
    intro i hi
    have hi' := h i
    rw [placedAt_cons, pieceAt_of_lt hi] at hi'
    cases hd : d[i]? with
    | none => exact nomatch hd ▸ hi'
    | some x =>
      rw [hd] at hi'
      obtain ⟨rfl, hnil⟩ := cons.inj hi'
      exact ⟨rfl, hnil⟩
  refine ⟨ext_getElem? fun i => ?_, fun i hi => (hhead i hi).2⟩
  rcases Nat.lt_or_ge i p.2.length with hlt | hge
  · rw [getElem?_take_of_lt hlt, (hhead i hlt).1, getElem?_eq_getElem hlt]
  · rw [getElem?_eq_none hge, getElem?_take_eq_none hge]

theorem contiguous_of_placedAt (hne : ∀ p ∈ pieces, p.2 ≠ [])
    (hsorted : pieces.Pairwise fun p q => p.1 < q.1) (hb : ∀ p ∈ pieces, b ≤ p.1)
    (h : ∀ i, placedAt pieces (b + i) = d[i]?.toList) :
    Contiguous b pieces ∧ d = (pieces.map Prod.snd).flatten := by
  induction pieces generalizing b d with
  | nil =>
    have h0 := h 0
    cases d with
    | nil => exact ⟨trivial, rfl⟩
    | cons x d => exact nomatch h0
  | cons p pieces ih =>
    rw [pairwise_cons] at hsorted
    obtain rfl := fst_eq_of_placedAt (hne p mem_cons_self) hb hsorted.1 h
    obtain ⟨htake, hfree⟩ := head_of_placedAt h
    have hne' := (forall_mem_cons.mp hne).2
    have hrest := ih (d := d.drop p.2.length) (b := p.1 + p.2.length) hne' hsorted.2 ?_ ?_
    · refine ⟨⟨rfl, hrest.1⟩, ?_⟩
      rw [map_cons, flatten_cons, ← hrest.2]
      nth_rewrite 1 [← take_append_drop p.2.length d]
      rw [htake]
    · intro q hq
      by_contra hlt
      have hlow := hsorted.1 q hq
      have := placedAt_eq_nil_iff.mp (hfree (q.1 - p.1) (by omega)) q hq
      have := length_pos_of_ne_nil (hne' q hq)
      omega
    · intro i
      have hi := h (p.2.length + i)
      rw [placedAt_cons, pieceAt_eq_none (by omega), Option.toList_none, nil_append,
        ← Nat.add_assoc] at hi
      rw [hi, getElem?_drop]

theorem Assembles.contiguous (h : Assembles pieces d) (hne : ∀ p ∈ pieces, p.2 ≠ [])
    (hsorted : pieces.Pairwise fun p q => p.1 < q.1) :
    Contiguous 0 pieces ∧ d = (pieces.map Prod.snd).flatten :=
  contiguous_of_placedAt hne hsorted (fun _ _ => Nat.zero_le _) fun i => by rw [Nat.zero_add, h i]

theorem exists_append_cons_of_lt_flatten : ∀ (lists : List (List A)) (n : Nat),
    n < lists.flatten.length → ∃ before l after, lists = before ++ l :: after ∧
      before.flatten.length ≤ n ∧ n < before.flatten.length + l.length
  | [], n, h => absurd h (Nat.not_lt_zero n)
  | l :: lists, n, h => by
    rw [flatten_cons, length_append] at h
    rcases Nat.lt_or_ge n l.length with hlt | hge
    · exact ⟨[], l, lists, rfl, Nat.zero_le n, by simpa using hlt⟩
    · obtain ⟨before, m, after, rfl, hle, hlt⟩ :=
        exists_append_cons_of_lt_flatten lists (n - l.length) (by omega)
      refine ⟨l :: before, m, after, rfl, ?_⟩
      rw [flatten_cons, length_append]
      omega

end Zephyr
