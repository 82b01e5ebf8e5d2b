import Mathlib

/-! The queue of links of `memq.c`. Its last link is spare: an item is stored in the link that was
spare before, and the link that comes with it takes over. -/

namespace Zephyr

open Function List

structure MemqLinks (L M : Type*) where
  next : L → L
  mem : L → M

variable {L M : Type*}

def memqEnqueue [DecidableEq L] (h : MemqLinks L M) (link : L) (mem : M) (tail : L) :
    MemqLinks L M :=
  { next := update h.next tail link, mem := update h.mem tail mem }

def memqPeek [DecidableEq L] (h : MemqLinks L M) (head tail : L) : Option (L × M) :=
  if head = tail then none else some (head, h.mem head)

def memqDequeue [DecidableEq L] (h : MemqLinks L M) (tail head : L) : L :=
  if head = tail then head else h.next head

namespace MemqLinks

variable {h h' : MemqLinks L M} {head tail link l : L} {m : M} {q : List (L × M)}

def Holds (h : MemqLinks L M) (tail : L) : L → List (L × M) → Prop
  | head, [] => head = tail
  | head, (l, m) :: q =>
    head = l ∧ h.mem l = m ∧ l ≠ tail ∧ l ∉ q.map (·.1) ∧ h.Holds tail (h.next l) q

theorem Holds.eq_nil (hq : h.Holds tail tail q) : q = [] := by
  cases q with
  | nil => rfl
  | cons x q =>
    obtain ⟨hl, -, hne, -⟩ := hq
    exact absurd hl.symm hne

theorem Holds.frame (hq : h.Holds tail head q)
    (hsame : ∀ l ∈ q.map (·.1), h'.next l = h.next l ∧ h'.mem l = h.mem l) :
    h'.Holds tail head q := by
  induction q generalizing head with
  | nil => exact hq
  | cons x q ih =>
    obtain ⟨hl, hm, hne, hnot, hrest⟩ := hq
    obtain ⟨hn, hm'⟩ := hsame x.1 mem_cons_self
    refine ⟨hl, hm'.trans hm, hne, hnot, ?_⟩
    rw [hn]
    exact ih hrest fun l hmem => hsame l (mem_cons_of_mem _ hmem)

variable [DecidableEq L]

theorem Holds.peek (hq : h.Holds tail head q) : memqPeek h head tail = q.head? := by
  cases q with
  | nil => exact if_pos hq
  | cons x q =>
    obtain ⟨l, m⟩ := x
    obtain ⟨rfl, rfl, hne, -⟩ := hq
    exact if_neg hne

theorem Holds.dequeue (hq : h.Holds tail head ((l, m) :: q)) :
    h.Holds tail (memqDequeue h tail head) q := by
  obtain ⟨rfl, -, hne, -, hrest⟩ := hq
  unfold memqDequeue
  rwa [if_neg hne]

theorem Holds.enqueue_other (hq : h.Holds tail head q) (hl : l ∉ q.map (·.1)) :
    (memqEnqueue h link m l).Holds tail head q := by
  apply hq.frame
  intro x hx
  have hne : x ≠ l := fun heq => hl (heq ▸ hx)
  exact ⟨update_of_ne hne _ _, update_of_ne hne _ _⟩

theorem Holds.enqueue (hq : h.Holds tail head q) (hlink : link ≠ tail) (hnot : link ∉ q.map (·.1)) :
    (memqEnqueue h link m tail).Holds link head (q ++ [(tail, m)]) := by
  induction q generalizing head with
  | nil =>
    exact ⟨hq, update_self .., hlink.symm, nofun, update_self ..⟩
  | cons x q ih =>
    obtain ⟨hl, hm, hne, hfresh, hrest⟩ := hq
    rw [map_cons, mem_cons, not_or] at hnot
    have hnext : (memqEnqueue h link m tail).next x.1 = h.next x.1 :=
      update_of_ne hne _ _
    have hmem : (memqEnqueue h link m tail).mem x.1 = h.mem x.1 :=
      update_of_ne hne _ _
    refine ⟨hl, hmem.trans hm, Ne.symm hnot.1, ?_, ?_⟩
    · change x.1 ∉ (q ++ [(tail, m)]).map (·.1)
      rw [map_append, mem_append, not_or]
      exact ⟨hfresh, by simpa using hne⟩
    · rw [hnext]
      exact ih hrest hnot.2

end MemqLinks

end Zephyr
