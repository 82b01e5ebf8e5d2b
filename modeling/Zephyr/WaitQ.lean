import Mathlib

/-! Wait queues of `ksched.h` and `sched.c`, as the list of the threads that pend on them. -/

namespace Zephyr

open Function List

variable {W : Type} {prio : W → Int} {w : W} {q : List W}

def pendThread (prio : W → Int) (w : W) : List W → List W
  | [] => [w]
  | pending :: waitQ =>
    if prio w < prio pending then w :: pending :: waitQ
    else pending :: pendThread prio w waitQ

theorem pendThread_perm (prio : W → Int) (w : W) (q : List W) :
    (pendThread prio w q).Perm (w :: q) := by
  induction q with
  | nil => exact .refl _
  | cons x q ih =>
    unfold pendThread
    split_ifs
    · exact .refl _
    · exact (ih.cons x).trans (.swap w x q)

theorem mem_pendThread {x : W} : x ∈ pendThread prio w q ↔ x = w ∨ x ∈ q := by
  rw [(pendThread_perm prio w q).mem_iff, mem_cons]

theorem nodup_pendThread (hq : q.Nodup) (hw : w ∉ q) : (pendThread prio w q).Nodup :=
  (pendThread_perm prio w q).nodup_iff.mpr (nodup_cons.mpr ⟨hw, hq⟩)

theorem sublist_pendThread (prio : W → Int) (w : W) (q : List W) :
    q.Sublist (pendThread prio w q) := by
  induction q with
  | nil => exact nil_sublist _
  | cons x q ih =>
    unfold pendThread
    split_ifs
    · exact sublist_cons_self w _
    · exact ih.cons_cons x

def ByPriority (prio : W → Int) (q : List W) : Prop := q.Pairwise (fun x y => prio x ≤ prio y)

theorem ByPriority.sublist {r : List W} (h : ByPriority prio q) (hr : r.Sublist q) :
    ByPriority prio r :=
  List.Pairwise.sublist hr h

theorem ByPriority.pendThread (h : ByPriority prio q) : ByPriority prio (pendThread prio w q) := by
  induction q with
  | nil => exact pairwise_singleton _ w
  | cons x q ih =>
    obtain ⟨hx, hq⟩ := pairwise_cons.mp h
    unfold Zephyr.pendThread
    split_ifs with hlt
    · refine pairwise_cons.mpr ⟨fun y hy => ?_, h⟩
      rcases mem_cons.mp hy with rfl | hy
      · exact Int.le_of_lt hlt
      · exact Int.le_trans (Int.le_of_lt hlt) (hx y hy)
    · refine pairwise_cons.mpr ⟨fun y hy => ?_, ih hq⟩
      rcases mem_pendThread.mp hy with rfl | hy
      · exact Int.not_lt.mp hlt
      · exact hx y hy

theorem byPriority_update_iff [DecidableEq W] {p : Int} (h : ByPriority prio q) (hq : q.Nodup) :
    ByPriority (update prio w p) q ↔ ∀ i : Fin q.length, q[i] = w →
      (∀ y ∈ q.take i, prio y ≤ p) ∧ ∀ y ∈ q.drop (i + 1), p ≤ prio y := by
  have hne : ∀ {i j : Nat} (hi : i < q.length) (hj : j < q.length), q[i] = w → i ≠ j → q[j] ≠ w :=
    fun hi hj hw hij he => hij (hq.getElem_inj_iff.mp (hw.trans he.symm))
  unfold ByPriority at *
  rw [pairwise_iff_getElem] at *
  constructor
  · rintro h' ⟨i, hi⟩ (hw : q[i] = w)
    dsimp only
    constructor
    · intro y hy
      obtain ⟨j, hj, rfl⟩ := mem_take_iff_getElem.mp hy
      have hle := h' j i (by omega) hi (by omega)
      rwa [hw, update_self, update_of_ne (hne hi _ hw (by omega))] at hle
    · intro y hy
      obtain ⟨j, hj, rfl⟩ := mem_drop_iff_getElem.mp hy
      have hle := h' i (i + 1 + j) hi (by omega) (by omega)
      rwa [hw, update_self, update_of_ne (hne hi _ hw (by omega))] at hle
  · intro hp i j hi hj hij
    by_cases hwi : q[i] = w
    · rw [hwi, update_self, update_of_ne (hne hi hj hwi (by omega))]
      have hmem : q[j] ∈ q.drop (i + 1) :=
        mem_drop_iff_getElem.mpr ⟨j - (i + 1), by omega, by congr 1; omega⟩
      exact (hp ⟨i, hi⟩ hwi).2 _ hmem
    · rw [update_of_ne hwi]
      by_cases hwj : q[j] = w
      · rw [hwj, update_self]
        have hmem : q[i] ∈ q.take j := mem_take_iff_getElem.mpr ⟨i, by omega, rfl⟩
        exact (hp ⟨j, hj⟩ hwj).1 _ hmem
      · rw [update_of_ne hwj]
        exact h i j hi hj hij

def findFirstThreadToUnpend (handlingTimeouts : Bool) (expired : W → Bool) (waitQ : List W) :
    Option W :=
  if handlingTimeouts then waitQ.find? (!expired ·) else waitQ.head?

theorem mem_of_findFirst {h : Bool} {expired : W → Bool}
    (hf : findFirstThreadToUnpend h expired q = some w) : w ∈ q := by
  unfold findFirstThreadToUnpend at hf
  split_ifs at hf
  · exact mem_of_find?_eq_some hf
  · exact mem_of_mem_head? hf

theorem eq_some_of_update {T C : Type} [DecidableEq T] {f : T → Option C} {o : Option C} {t u : T}
    {c : C} (h : update f t o u = some c) : u = t ∧ o = some c ∨ u ≠ t ∧ f u = some c := by
  by_cases hu : u = t
  · subst hu
    exact .inl ⟨rfl, by rwa [update_self] at h⟩
  · exact .inr ⟨hu, by rwa [update_of_ne hu] at h⟩

/-- A family of queues; `place` is the queue that a thread is in. -/
structure Queued {K : Type} (q : K → List W) (place : W → Option K) : Prop where
  nodup : ∀ k, (q k).Nodup
  mem : ∀ k w, w ∈ q k ↔ place w = some k

section Queued

variable {K : Type} [DecidableEq W] {qs : K → List W} {place : W → Option K} {k : K}

theorem Queued.stay (h : Queued qs place) (hw : place w = none) :
    Queued qs (update place w none) := by
  rwa [← hw, update_eq_self]

variable [DecidableEq K]

theorem Queued.pend (h : Queued qs place) (hw : place w = none) (k : K) :
    Queued (update qs k (pendThread prio w (qs k))) (update place w (some k)) := by
  have hk : w ∉ qs k := by simp [h.mem, hw]
  constructor
  · intro k'
    rcases eq_or_ne k' k with rfl | hne
    · rw [update_self]
      exact nodup_pendThread (h.nodup k') hk
    · rw [update_of_ne hne]
      exact h.nodup k'
  · have hmem := h.mem
    grind [update_apply, mem_pendThread]

theorem Queued.leave (h : Queued qs place) (hw : place w = some k) :
    Queued (update qs k ((qs k).erase w)) (update place w none) := by
  obtain ⟨hnodup, hmem⟩ := h
  constructor <;> grind [update_apply, (hnodup k).mem_erase_iff, List.Nodup.erase]

end Queued

inductive Wait where
  | noWait
  | ms (n : Nat)
  | forever
deriving DecidableEq

/-! A wait queue whose threads can time out. While the clock interrupt handles timeouts, threads
whose timeouts have expired are on the queue until it comes to them. -/

structure TimedQ (W : Type) where
  waitQ : List W
  expired : W → Bool
  handlingTimeouts : Bool

inductive Tick (W : Type) where
  | start
  | expire (w : W)
  | handle (w : W)
  | finish

namespace TimedQ

def empty : TimedQ W := ⟨[], fun _ => false, false⟩

def pend (q : TimedQ W) (prio : W → Int) (w : W) : TimedQ W :=
  { q with waitQ := pendThread prio w q.waitQ }

def Waiting (q : TimedQ W) (w : W) : Prop := w ∈ q.waitQ ∧ q.expired w = false

structure Calm (q : TimedQ W) : Prop where
  expired : ∀ w, q.expired w = true → q.handlingTimeouts = true ∧ w ∈ q.waitQ

theorem calm_empty : Calm (empty : TimedQ W) := ⟨nofun⟩

variable [DecidableEq W]

def unpendFirst (q : TimedQ W) : Option (W × TimedQ W) :=
  (findFirstThreadToUnpend q.handlingTimeouts q.expired q.waitQ).map fun w =>
    (w, { q with waitQ := q.waitQ.filter (· ≠ w) })

def tick (q : TimedQ W) : Tick W → Option (TimedQ W)
  | .start => if q.handlingTimeouts then none else some { q with handlingTimeouts := true }
  | .expire w =>
    if q.handlingTimeouts ∧ w ∈ q.waitQ then
      some { q with expired := update q.expired w true }
    else none
  | .handle w =>
    if q.expired w then
      some { q with
        waitQ := q.waitQ.filter (· ≠ w)
        expired := update q.expired w false }
    else none
  | .finish =>
    if q.handlingTimeouts ∧ ∀ w ∈ q.waitQ, q.expired w = false then
      some { q with handlingTimeouts := false }
    else none

variable {tq tq' : TimedQ W}

omit [DecidableEq W] in
theorem Calm.pend (h : Calm tq) (prio : W → Int) (w : W) : Calm (tq.pend prio w) :=
  ⟨fun x hx => ⟨(h.expired x hx).1, mem_pendThread.mpr (.inr (h.expired x hx).2)⟩⟩

theorem not_waiting (hnone : tq.unpendFirst = none) (w : W) : ¬ tq.Waiting w := by
  rintro ⟨hw, hlive⟩
  rw [unpendFirst, Option.map_eq_none_iff, findFirstThreadToUnpend] at hnone
  split_ifs at hnone
  · have hall := find?_eq_none.mp hnone w hw
    simp [hlive] at hall
  · rw [head?_eq_none_iff.mp hnone] at hw
    cases hw

theorem Calm.unpend (h : Calm tq) (hsome : tq.unpendFirst = some (w, tq')) :
    Calm tq' ∧ (∀ x, tq'.Waiting x → tq.Waiting x) ∧ tq.Waiting w := by
  obtain ⟨x, hfirst, heq⟩ := Option.map_eq_some_iff.mp hsome
  cases heq
  have hlive : tq.expired w = false := by
    rw [findFirstThreadToUnpend] at hfirst
    split_ifs at hfirst with hhandling
    · simpa using find?_some hfirst
    · exact Bool.eq_false_iff.mpr fun hexp => hhandling (h.expired w hexp).1
  refine ⟨⟨fun x hx => ⟨(h.expired x hx).1, ?_⟩⟩, ?_, mem_of_findFirst hfirst, hlive⟩
  · refine mem_filter.mpr ⟨(h.expired x hx).2, ?_⟩
    simpa using fun heq : x = w => Bool.false_ne_true (hlive.symm.trans (heq ▸ hx))
  · exact fun x hx => ⟨mem_of_mem_filter hx.1, hx.2⟩

theorem Calm.tick (h : Calm tq) {e : Tick W} (htick : tq.tick e = some tq') :
    Calm tq' ∧ ∀ x, tq'.Waiting x → tq.Waiting x := by
  obtain ⟨hexp⟩ := h
  cases e with
  | start =>
    simp only [TimedQ.tick] at htick
    split_ifs at htick
    cases htick
    exact ⟨⟨fun x hx => ⟨rfl, (hexp x hx).2⟩⟩, fun x hx => hx⟩
  | expire w =>
    simp only [TimedQ.tick] at htick
    split_ifs at htick with hw
    cases htick
    unfold Waiting
    exact ⟨⟨by grind [update_apply]⟩, by grind [update_apply]⟩
  | handle w =>
    simp only [TimedQ.tick] at htick
    split_ifs at htick
    cases htick
    unfold Waiting
    exact ⟨⟨by grind [update_apply]⟩, by grind [update_apply]⟩
  | finish =>
    simp only [TimedQ.tick] at htick
    split_ifs at htick with hdone
    cases htick
    refine ⟨⟨fun x hx => ?_⟩, fun x hx => hx⟩
    exact absurd ((hdone.2 x (hexp x hx).2).symm.trans hx) Bool.false_ne_true

end TimedQ

end Zephyr
