import Zephyr.ReadyQLists
import Zephyr.Run

/-! Runs of the ready queue. A thread that is not between two lists is on the ready queue of its
priority exactly when it is ready, and on a wait queue exactly when it is pending; a resume of a
ready thread puts it on its queue a second time. -/

namespace Zephyr.ReadyQ

open Function List

variable {T W : Type}

structure Inv (c : Config) (idle : T) (lists : Nat ⊕ W → List T) (s : Sched T W) : Prop where
  queues : Queues c idle lists s
  ready : ∀ t, s.transit t = false →
    (isThreadReady s t = true ↔ t ∈ lists (.inl (c.readyQQIndex (s.prio t))))
  pending : ∀ t, isThreadPending s t = true ↔ ∃ w, t ∈ lists (.inr w)
  transit : ∀ t, s.transit t = true → ∀ i ∈ c.queues W, t ∉ lists i
  idle : s.transit idle = false
  pends : ∀ w, (lists (.inr w)).length ≤ s.pends

variable {c : Config} {idle : T} {s r : Sched T W} {lists : Nat ⊕ W → List T} {t : T}

theorem mark_and_ne_zero {x bit mask : BitVec 8} (h : bit &&& mask ≠ 0#8) :
    (x ||| bit) &&& mask ≠ 0#8 := by
  rw [BitVec.and_comm, BitVec.and_or_distrib_left, ne_eq, BitVec.or_eq_zero_iff, not_and_or,
    BitVec.and_comm mask bit]
  exact .inr h

theorem mark_and_eq {x bit mask : BitVec 8} (h : bit &&& mask = 0#8) :
    (x ||| bit) &&& mask = x &&& mask := by
  rw [BitVec.and_comm, BitVec.and_or_distrib_left, BitVec.and_comm mask bit, h, BitVec.or_zero,
    BitVec.and_comm]

theorem isThreadReady_iff : isThreadReady s t = true ↔
    s.threadState t &&& 0x1f#8 = 0#8 ∧ s.timeoutActive t = false := by
  simp only [isThreadReady, isThreadPreventedFromRunning]
  have hm : threadPending ||| threadPrestart ||| threadDead ||| threadDummy ||| threadSuspended =
      0x1f#8 := by decide
  rw [hm]
  simp

theorem isThreadPending_iff : isThreadPending s t = true ↔ s.threadState t &&& 0x2#8 ≠ 0#8 := by
  rw [isThreadPending, decide_eq_true_eq]
  rfl

theorem pending_of_state_eq (h : r.threadState t &&& 0x2#8 = s.threadState t &&& 0x2#8) :
    isThreadPending r t = isThreadPending s t := by
  rw [Bool.eq_iff_iff, isThreadPending_iff, isThreadPending_iff, h]

theorem not_pending_of_ready (h : isThreadReady s t = true) : isThreadPending s t = false := by
  rw [← Bool.not_eq_true, isThreadPending_iff, not_not,
    show (0x2#8 : BitVec 8) = 0x1f#8 &&& 0x2#8 from rfl, ← BitVec.and_assoc,
    (isThreadReady_iff.mp h).1, BitVec.zero_and]

theorem Inv.not_mem_ready (h : Inv c idle lists s)
    (ht : s.transit t = true ∨ isThreadReady s t = false) {i : Nat} (hi : i < c.numPrio) :
    t ∉ lists (.inl i) := by
  intro hm
  by_cases htr : s.transit t = true
  · exact h.transit t htr (.inl i) (mem_queues_inl.mpr hi) hm
  · have hr := (ht.resolve_left htr)
    have hp := h.queues.place i hi t hm
    rw [← hp] at hm
    have := (h.ready t (by simpa using htr)).mpr hm
    simp [hr] at this

theorem Inv.not_mem_of (h : Inv c idle lists s)
    (ht : s.transit t = true ∨ isThreadReady s t = false) (hp : isThreadPending s t = false) :
    ∀ i ∈ c.queues W, t ∉ lists i := by
  rintro (i | w) hi
  · exact h.not_mem_ready ht (mem_queues_inl.mp hi)
  · intro hm
    have := (h.pending t).mpr ⟨w, hm⟩
    simp [hp] at this

def AgreeOff (t : T) (r s : Sched T W) : Prop :=
  ∀ x, x ≠ t → r.threadState x = s.threadState x ∧
    r.timeoutActive x = s.timeoutActive x ∧ r.transit x = s.transit x ∧ r.prio x = s.prio x

variable {lists' : Nat ⊕ W → List T}

theorem Inv.change (h : Inv c idle lists s) (t : T) (hq : Queues c idle lists' r)
    (hsame : AgreeOff t r s) (hmem : ∀ x, x ≠ t → ∀ i ∈ c.queues W, x ∈ lists' i ↔ x ∈ lists i)
    (hready : r.transit t = false → (isThreadReady r t = true ↔ t ∈ lists' (c.queueOf r t)))
    (hpend : isThreadPending r t = true ↔ ∃ w, t ∈ lists' (.inr w))
    (htr : r.transit t = true → ∀ i ∈ c.queues W, t ∉ lists' i)
    (hidle : t = idle → r.transit t = false) (hlen : ∀ w, (lists' (.inr w)).length ≤ r.pends) :
    Inv c idle lists' r := by
  refine ⟨hq, ?_, ?_, ?_, ?_, hlen⟩
  · intro x hx
    by_cases hxt : x = t
    · subst hxt
      exact hready hx
    · obtain ⟨h1, h2, h3, h4⟩ := hsame x hxt
      rw [hmem x hxt _ (mem_queues_inl.mpr (hq.index_lt x)), h4, ← h.ready x (h3 ▸ hx),
        isThreadReady_iff, isThreadReady_iff, h1, h2]
  · intro x
    by_cases hxt : x = t
    · subst hxt
      exact hpend
    · rw [pending_of_state_eq (s := s) (by rw [(hsame x hxt).1]), h.pending x]
      exact exists_congr fun w => (hmem x hxt _ mem_queues_inr).symm
  · intro x hx i hi
    by_cases hxt : x = t
    · subst hxt
      exact htr hx i hi
    · rw [hmem x hxt i hi]
      exact h.transit x ((hsame x hxt).2.2.1 ▸ hx) i hi
  · by_cases hit : t = idle
    · rw [← hit]
      exact hidle hit
    · rw [(hsame idle (Ne.symm hit)).2.2.1]
      exact h.idle

theorem Inv.setOff (h : Inv c idle lists s) (hne : t ≠ idle) (hq : Queues c idle lists' r)
    (hsame : AgreeOff t r s) (hmem : ∀ x, x ≠ t → ∀ i ∈ c.queues W, x ∈ lists' i ↔ x ∈ lists i)
    (hoff : ∀ i ∈ c.queues W, t ∉ lists' i)
    (hnr : r.transit t = false → isThreadReady r t = false) (hnp : isThreadPending r t = false)
    (hlen : ∀ w, (lists' (.inr w)).length ≤ r.pends) : Inv c idle lists' r := by
  refine h.change t hq hsame hmem ?_ ?_ (fun _ => hoff) (fun he => absurd he hne) hlen
  · intro htr
    have hm := hoff _ (mem_queues_inl.mpr (hq.index_lt t))
    simp [hnr htr, hm]
  · rw [hnp]
    constructor
    · intro hf
      exact absurd hf (by decide)
    · rintro ⟨w, hw⟩
      exact absurd hw (hoff (.inr w) mem_queues_inr)

theorem Inv.stay (h : Inv c idle lists s) (hold : s.transit t = true ∨ isThreadReady s t = false)
    (hq : Queues c idle lists r) (hsame : AgreeOff t r s)
    (hnr : r.transit t = false → isThreadReady r t = false)
    (hpend : isThreadPending r t = isThreadPending s t)
    (htr : r.transit t = true → s.transit t = true ∨ isThreadPending s t = false)
    (hpends : r.pends = s.pends) : Inv c idle lists r := by
  have hidle : t ≠ idle := by
    rintro rfl
    exact h.not_mem_ready hold (by have := h.queues.index_lt t; omega) h.queues.idle
  refine h.change t hq hsame (fun _ _ _ _ => Iff.rfl) ?_ ?_ ?_ (fun he => absurd he hidle) ?_
  · intro hf
    have hm := h.not_mem_ready hold (hq.index_lt t)
    simp [hnr hf, hm]
  · rw [hpend]
    exact h.pending t
  · intro hr
    rcases htr hr with h1 | h1
    · exact h.transit t h1
    · exact h.not_mem_of hold h1
  · intro w
    exact (h.pends w).trans_eq hpends.symm

theorem transit_false_of_ready (hset : s.transit t = true → isThreadReady s t = false)
    (hr : isThreadReady s t = true) : s.transit t = false := by
  by_contra hf
  simp [hset (by simpa using hf)] at hr

variable {w : W}

theorem Inv.wait_idle (h : Inv c idle lists s) (ht : t ∈ lists (.inr w)) : t ≠ idle := by
  rintro rfl
  have hi := h.queues.idle
  have hn := h.queues.index_lt t
  have := h.queues.apart (mem_queues_inl.mpr (by omega)) mem_queues_inr hi ht
  simp at this

section

variable [DecidableEq W] {i j : Nat ⊕ W} {x : T}

theorem mem_update_append (hx : x ≠ t) : x ∈ update lists i (lists i ++ [t]) j ↔ x ∈ lists j := by
  by_cases hj : j = i
  · subst hj
    simp [hx]
  · simp [hj]

theorem Inv.wait (h : Inv c idle lists s) {u v : List T}
    (hx : lists (.inr w) = u ++ v) (hoff : ∀ i ∈ c.queues W, t ∉ lists i)
    (hq : Queues c idle (update lists (.inr w) (u ++ t :: v)) r) (hsame : AgreeOff t r s)
    (hp : isThreadPending r t = true) (htr : r.transit t = false) (hlen : r.pends = s.pends + 1) :
    Inv c idle (update lists (.inr w) (u ++ t :: v)) r := by
  refine h.change t hq hsame ?_ ?_ ?_ ?_ (fun _ => htr) ?_
  · intro x hxt i _
    by_cases hi : i = .inr w
    · subst hi
      simp [hxt, hx]
    · rw [update_of_ne hi]
  · intro _
    have hm := hoff _ (mem_queues_inl.mpr (hq.index_lt t))
    refine ⟨fun hr => absurd hp ?_, fun hf => absurd hf hm⟩
    simp [not_pending_of_ready hr]
  · exact ⟨fun _ => ⟨w, by simp⟩, fun _ => hp⟩
  · intro hf
    simp [htr] at hf
  · intro j
    have hj := h.pends j
    by_cases hw : j = w
    · subst hw
      simp only [hx, length_append] at hj
      simp only [update_self, length_append, length_cons]
      omega
    · rw [update_of_ne (by simpa using hw)]
      omega

variable [DecidableEq T]

theorem mem_update_erase (hx : x ≠ t) : x ∈ update lists i ((lists i).erase t) j ↔ x ∈ lists j := by
  by_cases hj : j = i
  · subst hj
    simp [mem_erase_of_ne hx]
  · simp [hj]

theorem Inv.takeOff (h : Inv c idle lists s) (hne : t ≠ idle) (htr : s.transit t = false)
    (hr : isThreadReady s t = true) :
    ∃ lists' links' prioBmap' cache', removeThreadFromReadyQ c s t =
        some { s with links := links', prioBmap := prioBmap', cache := cache' } ∧
      Queues c idle lists' { s with links := links', prioBmap := prioBmap', cache := cache' } ∧
      (∀ i ∈ c.queues W, t ∉ lists' i) ∧
      (∀ x, x ≠ t → ∀ i ∈ c.queues W, x ∈ lists' i ↔ x ∈ lists i) ∧
      ∀ w, (lists' (.inr w)).length ≤ s.pends := by
  have ht := (h.ready t htr).mp hr
  have hi := mem_queues_inl (W := W).mpr (h.queues.index_lt t)
  obtain ⟨links', bmap', cache', he, hq⟩ := h.queues.remove ht hne
  refine ⟨_, links', bmap', cache', he, hq, fun i => h.queues.not_mem_erase hi ht,
    fun x hx i _ => mem_update_erase hx, fun w => ?_⟩
  exact h.pends w

theorem Inv.add (h : Inv c idle lists s) (hq : Queues c idle lists' r) (hsame : AgreeOff t r s)
    (hmem : ∀ x, x ≠ t → ∀ i ∈ c.queues W, x ∈ lists' i ↔ x ∈ lists i)
    (hoff : ∀ i ∈ c.queues W, t ∉ lists' i) (hready : isThreadReady r t = true)
    (hlen : ∀ w, (lists' (.inr w)).length ≤ r.pends) :
    ∃ lists', Inv c idle lists' ((addThreadToReadyQ c r t).setTransit t false) := by
  refine ⟨_, h.change t { hq.add hoff with } ?_ ?_ ?_ ?_ ?_ ?_ ?_⟩
  · intro x hx
    obtain ⟨h1, h2, h3, h4⟩ := hsame x hx
    exact ⟨h1, h2, (update_of_ne hx _ _).trans h3, h4⟩
  · exact fun x hx i hi => (mem_update_append hx).trans (hmem x hx i hi)
  · intro _
    have hm : t ∈ update lists' (c.queueOf r t) (lists' (c.queueOf r t) ++ [t])
        (c.queueOf r t) := by simp
    exact ⟨fun _ => hm, fun _ => hready⟩
  · have hn := not_pending_of_ready hready
    constructor
    · intro hp
      exact absurd (hn.symm.trans hp) (by decide)
    · rintro ⟨w, hw⟩
      exact absurd (by simpa using hw) (hoff (.inr w) mem_queues_inr)
  · intro htr
    simp [Sched.setTransit] at htr
  · intro _
    simp [Sched.setTransit]
  · intro w
    exact hlen w

variable {bit : BitVec 8} {b : Bool}

section

omit [DecidableEq W]

theorem agreeOff_mark : AgreeOff t (markThread s t bit) s :=
  fun _ hx => ⟨update_of_ne hx _ _, rfl, rfl, rfl⟩

theorem agreeOff_unmark : AgreeOff t (unmarkThread s t bit) s :=
  fun _ hx => ⟨update_of_ne hx _ _, rfl, rfl, rfl⟩

theorem AgreeOff.setTransit (h : AgreeOff t r s) : AgreeOff t (r.setTransit t b) s :=
  fun x hx => ⟨(h x hx).1, (h x hx).2.1, (update_of_ne hx _ _).trans (h x hx).2.2.1, (h x hx).2.2.2⟩

theorem AgreeOff.setTimeout (h : AgreeOff t r s) :
    AgreeOff t { r with timeoutActive := update r.timeoutActive t b } s :=
  fun x hx => ⟨(h x hx).1, (update_of_ne hx _ _).trans (h x hx).2.1, (h x hx).2.2⟩

theorem AgreeOff.setPrio {prio : Int} (h : AgreeOff t r s) :
    AgreeOff t { r with prio := update r.prio t prio } s :=
  fun x hx => ⟨(h x hx).1, (h x hx).2.1, (h x hx).2.2.1, (update_of_ne hx _ _).trans (h x hx).2.2.2⟩

theorem not_ready_mark (hb : bit &&& 0x1f#8 ≠ 0#8) :
    isThreadReady (markThread s t bit) t = false := by
  rw [← Bool.not_eq_true, isThreadReady_iff]
  intro hf
  exact mark_and_ne_zero hb (by simpa [markThread] using hf.1)

theorem pending_mark (hb : bit &&& 0x2#8 = 0#8) :
    isThreadPending (markThread s t bit) t = isThreadPending s t := by
  apply pending_of_state_eq
  simpa [markThread] using mark_and_eq hb

theorem pending_unmark (hb : ~~~bit &&& 0x2#8 = 0x2#8) :
    isThreadPending (unmarkThread s t bit) t = isThreadPending s t := by
  apply pending_of_state_eq
  simp [unmarkThread, BitVec.and_assoc, hb]

end

abbrev Keeps (c : Config) (idle : T) (s : Sched T W) (a : Act T W) : Prop :=
  ∃ s', step c s a = some s' ∧ ∃ lists', Inv c idle lists' s'

theorem Inv.remove (h : Inv c idle lists s) (hne : t ≠ idle) (htr : s.transit t = false)
    (hr : isThreadReady s t = true) : Keeps c idle s (.remove t) := by
  obtain ⟨lists', _, _, _, he, hq, hoff, hmem, hlen⟩ := h.takeOff hne htr hr
  refine ⟨_, congrArg (Option.map fun r : Sched T W => r.setTransit t true) he, lists', ?_⟩
  refine h.setOff hne { hq with } ?_ hmem hoff ?_ (not_pending_of_ready hr) hlen
  · exact AgreeOff.setTransit fun x _ => ⟨rfl, rfl, rfl, rfl⟩
  · intro hf
    simp [Sched.setTransit] at hf

theorem Inv.move (h : Inv c idle lists s) (htr : s.transit t = false)
    (hr : isThreadReady s t = true) : Keeps c idle s (.move t) := by
  have ht := (h.ready t htr).mp hr
  obtain ⟨xs, _, _, he, hxs, hq⟩ := h.queues.move ht
  have hmem : ∀ x i, x ∈ update lists (c.queueOf s t) xs i ↔ x ∈ lists i := by
    intro x i
    by_cases hi : i = .inl (c.readyQQIndex (s.prio t))
    · subst hi
      rw [update_self, hxs]
    · rw [update_of_ne hi]
  refine ⟨_, he, _, hq, ?_, ?_, ?_, h.idle, ?_⟩
  · intro x hx
    exact (h.ready x hx).trans (hmem _ _).symm
  · intro x
    exact (h.pending x).trans (exists_congr fun w => (hmem _ _).symm)
  · intro x hx i hi
    rw [hmem]
    exact h.transit x hx i hi
  · simpa using h.pends

theorem Inv.unmark (h : Inv c idle lists s) (hb : ~~~bit &&& 0x2#8 = 0x2#8)
    (hold : s.transit t = true ∨ isThreadReady s t = false) :
    ∃ lists', Inv c idle lists' ((if isThreadReady (unmarkThread s t bit) t then
      addThreadToReadyQ c (unmarkThread s t bit) t else unmarkThread s t bit).setTransit t false) := by
  have hq : Queues c idle lists (unmarkThread s t bit) := { h.queues with }
  by_cases hr : isThreadReady (unmarkThread s t bit) t = true
  · rw [if_pos hr]
    have hp := (pending_unmark hb).symm.trans (not_pending_of_ready hr)
    exact h.add hq agreeOff_unmark (fun _ _ _ _ => Iff.rfl) (h.not_mem_of hold hp) hr h.pends
  · rw [if_neg hr]
    have hr' : isThreadReady (unmarkThread s t bit) t = false := by simpa using hr
    refine ⟨lists, h.stay hold { hq with } agreeOff_unmark.setTransit
      (fun _ => hr') (pending_unmark hb) ?_ rfl⟩
    intro hf
    simp [Sched.setTransit] at hf

omit [DecidableEq W] in
theorem Sched.setTransit_eq_self (h : s.transit t = b) : s.setTransit t b = s := by
  rw [Sched.setTransit, ← h, update_eq_self]

theorem Inv.prioritySet (h : Inv c idle lists s) {prio : Int} (hne : t ≠ idle)
    (hp : c.validPrio prio = true) (hset : s.transit t = true → isThreadReady s t = false) :
    Keeps c idle s (.prioritySet t prio) := by
  simp only [Keeps, step, threadPrioritySet]
  by_cases hr : isThreadReady s t = true
  · have htr := transit_false_of_ready hset hr
    obtain ⟨_, _, _, _, he, hq, hoff, hmem, hlen⟩ := h.takeOff hne htr hr
    rw [if_pos hr, he]
    refine ⟨_, rfl, ?_⟩
    obtain ⟨lists'', hi⟩ := h.add (t := t) (hq.setPrio (fun i hi => hoff _ (mem_queues_inl.mpr hi)) hp)
      (AgreeOff.setPrio fun x _ => ⟨rfl, rfl, rfl, rfl⟩) hmem hoff hr hlen
    rw [Sched.setTransit_eq_self] at hi
    · exact ⟨lists'', hi⟩
    · exact htr
  · have hr' : isThreadReady s t = false := by simpa using hr
    rw [if_neg hr]
    exact ⟨_, rfl, lists, h.stay (.inr hr')
      (h.queues.setPrio (fun i hi => h.not_mem_ready (.inr hr') hi) hp)
      (AgreeOff.setPrio fun x _ => ⟨rfl, rfl, rfl, rfl⟩) (fun _ => hr') rfl (.inl) rfl⟩

theorem Inv.suspend (h : Inv c idle lists s) (hne : t ≠ idle)
    (hset : s.transit t = true → isThreadReady s t = false) : Keeps c idle s (.suspend t) := by
  have hp : threadSuspended &&& 0x2#8 = 0#8 := rfl
  have hb : threadSuspended &&& 0x1f#8 ≠ 0#8 := by decide
  simp only [Keeps, step, kThreadSingleSuspend]
  by_cases hr : isThreadReady s t = true
  · have htr := transit_false_of_ready hset hr
    obtain ⟨lists', _, _, _, he, hq, hoff, hmem, hlen⟩ := h.takeOff hne htr hr
    rw [if_pos hr, he]
    exact ⟨_, rfl, lists', h.setOff hne { hq with } agreeOff_mark hmem hoff
      (fun _ => not_ready_mark hb) ((pending_mark hp).trans (not_pending_of_ready hr)) hlen⟩
  · have hr' : isThreadReady s t = false := by simpa using hr
    rw [if_neg hr]
    exact ⟨_, rfl, lists, h.stay (.inr hr') { h.queues with } agreeOff_mark
      (fun _ => not_ready_mark hb) (pending_mark hp) (.inl) rfl⟩

theorem Inv.pend (h : Inv c idle lists s) {timeout : Bool}
    (hset : s.transit t = true ∨ isThreadReady s t = false ∧ isThreadPending s t = false) :
    Keeps c idle s (.pend t w timeout) := by
  have hoff : ∀ i ∈ c.queues W, t ∉ lists i := by
    rcases hset with htr | ⟨hr, hp⟩
    · exact h.transit t htr
    · exact h.not_mem_of (.inr hr) hp
  obtain ⟨u, v, _, hx, he, hrings⟩ :=
    pendLoop_spec (u := []) (h.pends w) h.queues.rings rfl hoff
  have hhead : sysDlistPeekHead s.links (.waitQ w) = (lists (.inr w)).head?.map .thread := by
    have := sysDlistPeekHead_ring (h.queues.rings.ring (.inr w) mem_queues_inr)
    simpa [nodesOf, anchor] using this
  have hp : isThreadPending (markThread s t threadPending) t = true := by
    have hb : threadPending &&& 0x2#8 ≠ 0#8 := by decide
    rw [isThreadPending_iff]
    simpa [markThread] using mark_and_ne_zero hb
  simp only [Keeps, step, pendThread, hhead, he]
  refine ⟨_, rfl, _, h.wait hx hoff { h.queues.setWait hrings with } ?_ hp ?_ rfl⟩
  · exact AgreeOff.setTransit (AgreeOff.setTimeout agreeOff_mark)
  · simp [Sched.setTransit]

theorem Inv.unwait (h : Inv c idle lists s) (ht : t ∈ lists (.inr w)) {threadState timeoutActive
    transit} (hr : r = { s with
      links := sysDlistRemove s.links (.thread t), threadState, timeoutActive, transit })
    (hsame : AgreeOff t r s) (hnr : r.transit t = false → isThreadReady r t = false)
    (hnp : isThreadPending r t = false) : ∃ lists', Inv c idle lists' r := by
  subst hr
  have hrings := h.queues.remove_rings mem_queues_inr ht
  refine ⟨_, h.setOff (h.wait_idle ht) { h.queues.setWait hrings with } hsame
    (fun x hx i _ => mem_update_erase hx) (fun i => h.queues.not_mem_erase mem_queues_inr ht)
    hnr hnp ?_⟩
  intro j
  have hj := h.pends j
  by_cases hw : j = w
  · subst hw
    rw [update_self]
    exact (length_erase_le).trans hj
  · rw [update_of_ne (by simpa using hw)]
    exact hj

theorem not_pending_unpend : isThreadPending (unpendThread s t) t = false := by
  rw [← Bool.not_eq_true, isThreadPending_iff]
  simp [unpendThread, unmarkThread, BitVec.and_assoc, threadPending]

theorem Inv.unpend (h : Inv c idle lists s) (hp : isThreadPending s t = true) :
    Keeps c idle s (.unpend t) := by
  obtain ⟨w, hw⟩ := (h.pending t).mp hp
  refine ⟨_, rfl, h.unwait hw rfl agreeOff_unmark.setTransit ?_ not_pending_unpend⟩
  intro hf
  simp [Sched.setTransit] at hf

omit [DecidableEq W] in
theorem clear_timeout_eq : (if s.timeoutActive t then
      { s with timeoutActive := update s.timeoutActive t false } else s) =
    { s with timeoutActive := update s.timeoutActive t false } := by
  by_cases ha : s.timeoutActive t = true
  · rw [if_pos ha]
  · have hf : s.timeoutActive t = false := by simpa using ha
    rw [if_neg ha, ← hf, update_eq_self]

theorem Inv.abort (h : Inv c idle lists s) (hne : t ≠ idle)
    (hset : s.transit t = true → isThreadReady s t = false) : Keeps c idle s (.abort t) := by
  have hp : threadDead &&& 0x2#8 = 0#8 := rfl
  have hb : threadDead &&& 0x1f#8 ≠ 0#8 := by decide
  simp only [Keeps, step, kThreadSingleAbort]
  by_cases hr : isThreadReady s t = true
  · have htr := transit_false_of_ready hset hr
    obtain ⟨lists', _, _, _, he, hq, hoff, hmem, hlen⟩ := h.takeOff hne htr hr
    rw [if_pos hr, he]
    exact ⟨_, rfl, lists', h.setOff hne { hq with }
      agreeOff_mark.setTransit hmem hoff (fun _ => not_ready_mark hb)
      ((pending_mark hp).trans (not_pending_of_ready hr)) hlen⟩
  · rw [if_neg hr, clear_timeout_eq]
    refine ⟨_, rfl, ?_⟩
    by_cases hpend : isThreadPending s t = true
    · rw [if_pos hpend]
      obtain ⟨w, hw⟩ := (h.pending t).mp hpend
      refine h.unwait hw rfl ?_ (fun _ => not_ready_mark hb)
        ((pending_mark hp).trans not_pending_unpend)
      intro x hx
      obtain ⟨h1, h2, h3, h4⟩ := (agreeOff_unmark.setTimeout (b := false)).setTransit (b := false) x hx
      exact ⟨(update_of_ne hx _ _).trans h1, h2, h3, h4⟩
    · rw [if_neg hpend]
      have hr' : isThreadReady s t = false := by simpa using hr
      refine ⟨lists, h.stay (.inr hr') { h.queues with } ?_
        (fun _ => not_ready_mark hb) (pending_mark hp) ?_ rfl⟩
      · exact fun x hx => ⟨update_of_ne hx _ _, update_of_ne hx _ _, update_of_ne hx _ _, rfl⟩
      · intro hf
        simp [Sched.setTransit] at hf

theorem Inv.sleep (h : Inv c idle lists s) (hold : s.transit t = true ∨ isThreadReady s t = false) :
    Keeps c idle s (.sleep t) := by
  refine ⟨_, rfl, lists, h.stay hold { h.queues with }
    (AgreeOff.setTimeout fun x _ => ⟨rfl, rfl, rfl, rfl⟩) ?_ rfl (.inl) rfl⟩
  intro _
  rw [← Bool.not_eq_true, isThreadReady_iff]
  simp

theorem Inv.timeout (h : Inv c idle lists s) (ha : s.timeoutActive t = true) :
    Keeps c idle s (.timeout t) := by
  have hr : isThreadReady s t = false := by
    rw [← Bool.not_eq_true, isThreadReady_iff]
    simp [ha]
  refine ⟨_, rfl, lists, h.stay (.inr hr) { h.queues with }
    (AgreeOff.setTransit (AgreeOff.setTimeout fun x _ => ⟨rfl, rfl, rfl, rfl⟩)) ?_ rfl ?_ rfl⟩
  · intro hf
    have hp : isThreadPending s t = true := by
      have : (s.transit t || !isThreadPending s t) = false := by
        simpa [Sched.setTransit] using hf
      simpa using (Bool.or_eq_false_iff.mp this).2
    by_contra hn
    have := not_pending_of_ready (Bool.not_eq_false _ ▸ hn)
    exact absurd (hp.symm.trans this) (by decide)
  · intro hf
    have : (s.transit t || !isThreadPending s t) = true := by
      simpa [Sched.setTransit] using hf
    simpa using this

theorem Inv.step (h : Inv c idle lists s) {a : Act T W} (ha : Allowed c idle s a) :
    Keeps c idle s a := by
  cases a with
  | add t =>
    obtain ⟨htr, hr⟩ := ha
    exact ⟨_, rfl, h.add h.queues (fun x _ => ⟨rfl, rfl, rfl, rfl⟩) (fun _ _ _ _ => Iff.rfl)
      (h.transit t htr) hr h.pends⟩
  | remove t => exact h.remove ha.1 ha.2.1 ha.2.2
  | move t => exact h.move ha.1 ha.2
  | ready t => exact ⟨_, rfl, h.unmark rfl ha⟩
  | prioritySet t prio => exact h.prioritySet ha.1 ha.2.1 ha.2.2
  | suspend t => exact h.suspend ha.1 ha.2
  | resume t => exact ⟨_, rfl, h.unmark rfl ha⟩
  | pend t w timeout => exact h.pend ha.2
  | unpend t => exact h.unpend ha
  | abort t => exact h.abort ha.1 ha.2
  | sleep t => exact h.sleep ha
  | timeout t => exact h.timeout ha

/-- What `prepare_multithreading` and the priority check of thread creation give: the idle thread
alone has the lowest priority, and neither it nor the main thread is a dummy. -/
structure Boot (c : Config) (main idle : T) (prio : T → Int) (dummy : T → Bool) : Prop where
  ne : main ≠ idle
  valid : ∀ t, t ≠ idle → c.validPrio (prio t) = true
  lowest : prio idle + c.numCoop + 1 = c.numPrio
  main : dummy main = false
  idle : dummy idle = false

theorem initFold_self (xs : List Nat) (h : Links (Node T W)) {x : Node T W}
    (hx : x ∈ xs.map .readyQ ∨ h.next x = x ∧ h.prev x = x) :
    (xs.foldl (fun h i => sysDlistInit h (.readyQ i)) h).next x = x ∧
      (xs.foldl (fun h i => sysDlistInit h (.readyQ i)) h).prev x = x := by
  induction xs generalizing h with
  | nil => simpa using hx
  | cons i xs ih =>
    refine ih (sysDlistInit h (.readyQ i)) ?_
    by_cases hi : x = .readyQ i
    · subst hi
      exact .inr ⟨by simp [sysDlistInit, Links.setNext, Links.setPrev],
        by simp [sysDlistInit, Links.setPrev]⟩
    · simpa [sysDlistInit, Links.setNext, Links.setPrev, hi] using hx

theorem zeroSched_rings (c : Config) (main : T) (links : Links (Node T W)) (prio : T → Int)
    (dummy : T → Bool) :
    (zeroSched c main links prio dummy).links.Rings (c.queues W) anchor
      (nodesOf fun _ => ([] : List T)) := by
  refine ⟨?_, ?_⟩
  · rintro (i | w) hi
    · refine isRing_nil_iff.mpr (initFold_self _ _ (.inl ?_))
      exact mem_map_of_mem (List.mem_range.mpr (mem_queues_inl.mp hi))
    · exact isRing_nil_iff.mpr (initFold_self _ _ (.inr ⟨rfl, rfl⟩))
  · intro i _ j _ hij
    have : (anchor i : Node T W) ≠ anchor j := by
      cases i <;> cases j <;> simp_all [anchor]
    simpa [nodesOf] using this.symm

variable {main : T} {links : Links (Node T W)} {prio : T → Int} {dummy : T → Bool}

def bootLists (c : Config) (main idle : T) (prio : T → Int) : Nat ⊕ W → List T :=
  update (update (fun _ => []) (.inl (c.readyQQIndex (prio main))) [main])
    (.inl (c.readyQQIndex (prio idle))) [idle]

omit [DecidableEq T] in
theorem mem_bootLists {i : Nat ⊕ W} (hb : Boot c main idle prio dummy) :
    x ∈ bootLists c main idle prio i ↔ x = main ∧ i = .inl (c.readyQQIndex (prio main)) ∨
        x = idle ∧ i = .inl (c.readyQQIndex (prio idle)) := by
  have hm := hb.valid main hb.ne
  have hl := hb.lowest
  have hne : c.readyQQIndex (prio main) ≠ c.readyQQIndex (prio idle) := by
    simp only [Config.validPrio, Bool.and_eq_true, decide_eq_true_eq] at hm
    simp only [Config.readyQQIndex]
    omega
  by_cases hi : i = .inl (c.readyQQIndex (prio idle))
  · subst hi
    simp [bootLists, hne.symm]
  · by_cases hj : i = .inl (c.readyQQIndex (prio main))
    · subst hj
      simp [bootLists, hne]
    · simp [bootLists, hi, hj]

theorem Queues.init (hb : Boot c main idle prio dummy) :
    Queues c idle (bootLists c main idle prio) (initSched c main idle links prio dummy) := by
  have hm := hb.valid main hb.ne
  have hl := hb.lowest
  simp only [Config.validPrio, Bool.and_eq_true, decide_eq_true_eq] at hm
  have him : c.readyQQIndex (prio main) < c.numPrio := by
    simp only [Config.readyQQIndex]
    omega
  have hii : c.readyQQIndex (prio idle) = c.numPrio - 1 := by
    simp only [Config.readyQQIndex]
    omega
  have hne : c.readyQQIndex (prio main) ≠ c.readyQQIndex (prio idle) := by
    simp only [Config.readyQQIndex] at hii ⊢
    omega
  have hcache : (initSched c main idle links prio dummy).cache = main := by
    have hlt : ¬ prio idle < prio main := by omega
    simp [initSched, unmarkThread, zeroSched, addThreadToReadyQ,
      setReadyQPrioBit, isT1HigherPrioThanT2, hlt]
  let mainList : Nat ⊕ W → List T :=
    update (fun _ => []) (.inl (c.readyQQIndex (prio main))) ([] ++ [main])
  have hlists : bootLists c main idle prio = update mainList (.inl (c.readyQQIndex (prio idle)))
        (mainList (.inl (c.readyQQIndex (prio idle))) ++ [idle]) := by
    simp [bootLists, mainList, hne.symm]
  refine ⟨?_, ?_, ?_, ?_, ?_, ?_, ?_⟩
  · rw [hlists]
    refine add_rings (add_rings (zeroSched_rings c main links prio dummy) him (by simp)) ?_ ?_
    · exact (show c.readyQQIndex (prio idle) < c.numPrio by omega)
    · rintro i -
      by_cases hi : i = .inl (c.readyQQIndex (prio main))
      · subst hi
        simpa [mainList] using hb.ne.symm
      · simp [mainList, hi]
  · rw [hlists]
    refine add_bits (add_bits ?_)
    simp [prioBit, zeroSched, unmarkThread]
  · intro t
    change 0 ≤ prio t + c.numCoop ∧ prio t + c.numCoop < c.numPrio
    by_cases ht : t = idle
    · subst ht
      omega
    · have := hb.valid t ht
      simp only [Config.validPrio, Bool.and_eq_true, decide_eq_true_eq] at this
      omega
  · intro i _ t ht
    change c.readyQQIndex (prio t) = i
    rcases (mem_bootLists hb).mp ht with ⟨rfl, he⟩ | ⟨rfl, he⟩
    · exact (Sum.inl.inj he).symm
    · exact (Sum.inl.inj he).symm
  · exact (mem_bootLists hb).mpr (.inr ⟨rfl, by rw [hii]⟩)
  · rw [hcache]
    change (bootLists c main idle prio (.inl (c.readyQQIndex (prio main)))).head? = some main
    simp [bootLists, hne]
  · rw [hcache]
    intro i hi
    have hi' : i < c.readyQQIndex (prio main) := hi
    have h1 : i ≠ c.readyQQIndex (prio main) := by omega
    have h2 : i ≠ c.readyQQIndex (prio idle) := by omega
    simp [bootLists, h1, h2]

theorem initSched_state (hb : Boot c main idle prio dummy) (t : T) :
    (initSched c main idle links prio dummy).threadState t =
      if t = main ∨ t = idle then 0#8 else if dummy t then threadDummy else threadPrestart := by
  have h1 := hb.main
  have h2 := hb.idle
  have h3 := hb.ne
  have h4 := hb.ne.symm
  change update (update _ main _) idle _ t = _
  by_cases hi : t = idle
  · subst hi
    simp [zeroSched, addThreadToReadyQ, setReadyQPrioBit, unmarkThread, h2, h4]
  · by_cases hm : t = main
    · subst hm
      simp [zeroSched, h1, h3]
    · simp [zeroSched, hi, hm]

theorem Inv.init (links : Links (Node T W)) (hb : Boot c main idle prio dummy) :
    Inv c idle (bootLists c main idle prio) (initSched c main idle links prio dummy) := by
  have hnone : ∀ (i : T) (w : W), i ∉ bootLists c main idle prio (.inr w) := by
    intro i w hm
    rcases (mem_bootLists hb).mp hm with ⟨-, he⟩ | ⟨-, he⟩ <;> simp at he
  refine ⟨Queues.init hb, ?_, ?_, ?_, rfl, ?_⟩
  · intro t _
    rw [isThreadReady_iff, initSched_state hb]
    change _ ↔ t ∈ bootLists c main idle prio (.inl (c.readyQQIndex (prio t)))
    rw [mem_bootLists hb]
    by_cases hm : t = main
    · subst hm
      exact ⟨fun _ => .inl ⟨rfl, rfl⟩, fun _ => ⟨by simp, rfl⟩⟩
    · by_cases hi : t = idle
      · subst hi
        exact ⟨fun _ => .inr ⟨rfl, rfl⟩, fun _ => ⟨by simp, rfl⟩⟩
      · cases hd : dummy t <;> simp [hm, hi, threadDummy, threadPrestart]
  · intro t
    rw [isThreadPending_iff, initSched_state hb]
    refine ⟨fun hf => absurd ?_ hf, fun ⟨w, hw⟩ => absurd hw (hnone t w)⟩
    by_cases hm : t = main ∨ t = idle
    · simp [hm]
    · cases hd : dummy t <;> simp [hm, threadDummy, threadPrestart]
  · intro t hf
    exact absurd hf (by simp [initSched, zeroSched, addThreadToReadyQ, setReadyQPrioBit, unmarkThread])
  · intro w
    exact Nat.zero_le _

theorem Inv.of_run (hb : Boot c main idle prio dummy)
    (h : GuardedRun (ReadyQ.step c) (Allowed c idle) (initSched c main idle links prio dummy) s) :
    ∃ lists, Inv c idle lists s := by
  refine h.invariant (P := fun s => ∃ lists, Inv c idle lists s) ?_ ⟨_, Inv.init _ hb⟩
  rintro s a t ⟨lists, hi⟩ ha hs
  obtain ⟨_, hs', hi'⟩ := hi.step ha
  rw [hs] at hs'
  exact Option.some.inj hs' ▸ hi'

/-- Throughout every run: the lists are intact, a priority's bit tells whether its queue has a
thread, a ready thread is on the queue of its priority and no other list, and the cache is the
head of the highest queue there is. No step is stuck. -/
theorem ready_q_consistent (links : Links (Node T W)) (hb : Boot c main idle prio dummy)
    (h : GuardedRun (step c) (Allowed c idle) (initSched c main idle links prio dummy) s) :
    ∃ lists : Nat ⊕ W → List T, s.links.Rings (c.queues W) anchor (nodesOf lists) ∧
      (∀ i < c.numPrio, prioBit s.prioBmap i = true ↔ lists (.inl i) ≠ []) ∧
      (∀ t, s.transit t = false → isThreadReady s t = true →
        ∀ i ∈ c.queues W, t ∈ lists i ↔ i = .inl (c.readyQQIndex (s.prio t))) ∧
      (∀ t, ∀ i < c.numPrio, t ∈ lists (.inl i) →
        isThreadReady s t = true ∧ c.readyQQIndex (s.prio t) = i) ∧
      (∀ t, s.transit t = true → ∀ i ∈ c.queues W, t ∉ lists i) ∧
      isThreadReady s idle = true ∧
      (lists (.inl (c.readyQQIndex (s.prio s.cache)))).head? = some s.cache ∧
      (∀ i < c.readyQQIndex (s.prio s.cache), lists (.inl i) = []) ∧
      getReadyQHead c s = some (getNextReadyThread s) ∧
      ∀ a, Allowed c idle s a → (step c s a).isSome := by
  obtain ⟨lists, hi⟩ := Inv.of_run hb h
  have hq := hi.queues
  have hon : ∀ t, ∀ i < c.numPrio, t ∈ lists (.inl i) →
      isThreadReady s t = true ∧ c.readyQQIndex (s.prio t) = i := by
    intro t i hn ht
    refine ⟨?_, hq.place i hn t ht⟩
    by_contra hr
    exact hi.not_mem_ready (.inr (by simpa using hr)) hn ht
  refine ⟨lists, hq.rings, hq.bits, ?_, hon, hi.transit, ?_, hq.cache, hq.highest,
    hq.head_eq_cache, ?_⟩
  · intro t htr hr i hin
    have ht := (hi.ready t htr).mp hr
    refine ⟨fun hm => hq.apart hin (mem_queues_inl.mpr (hq.index_lt t)) hm ht, ?_⟩
    rintro rfl
    exact ht
  · have hn := hq.index_lt idle
    exact (hon idle (c.numPrio - 1) (by omega) hq.idle).1
  · intro a ha
    obtain ⟨_, hs', -⟩ := hi.step ha
    rw [hs']
    rfl

instance (c : Config) (idle : T) (s : Sched T W) (a : Act T W) : Decidable (Allowed c idle s a) :=
  match a with
  | .add _ | .move _ | .suspend _ | .abort _ => inferInstanceAs (Decidable (_ ∧ _))
  | .remove _ | .prioritySet _ _ => inferInstanceAs (Decidable (_ ∧ _ ∧ _))
  | .ready _ | .resume _ | .sleep _ => inferInstanceAs (Decidable (_ ∨ _))
  | .pend _ _ _ => inferInstanceAs (Decidable (_ ∧ (_ ∨ _ ∧ _)))
  | .unpend _ | .timeout _ => inferInstanceAs (Decidable (_ = true))

theorem ready_q_consistent_moves :
    ∃ s, [Act.ready 2, .suspend 0, .prioritySet 2 (-1), .resume 0, .remove 0, .pend 0 () true,
        .timeout 0, .unpend 0, .ready 0, .move 0].foldlM (step ⟨1, 3⟩)
          (initSched ⟨1, 3⟩ 0 1 ⟨id, id⟩ (fun t : Nat => if t = 1 then 1 else 0) (fun _ => false)) =
        some s ∧ getReadyQHead ⟨1, 3⟩ s = some (getNextReadyThread s) := by
  have hb : Boot ⟨1, 3⟩ 0 1 (fun t : Nat => if t = 1 then 1 else 0) (fun _ => false) := by
    refine ⟨by decide, ?_, rfl, rfl, rfl⟩
    intro t ht
    simp [Config.validPrio, ht]
  obtain ⟨_, _, _, _, _, _, _, _, _, hh, _⟩ := ready_q_consistent (s := _) ⟨id, id⟩ hb
    (GuardedRun.of_foldlM (step ⟨1, 3⟩) (Allowed ⟨1, 3⟩ 1) [.ready 2, .suspend 0,
      .prioritySet 2 (-1), .resume 0, .remove 0, .pend 0 () true, .timeout 0, .unpend 0,
      .ready 0, .move 0] rfl)
  exact ⟨_, rfl, hh⟩

end

open Option

inductive Call where
  | suspend
  | resume
deriving DecidableEq

def QueuedOnce (c : Config) (t : T) (s : Sched T W) : Prop :=
  ∃ xs : List T, s.links.IsRing (.readyQ (c.readyQQIndex (s.prio t))) (xs.map .thread) ∧
    (t ∈ xs ↔ isThreadReady s t = true)

theorem Inv.queuedOnce (h : Inv c idle lists s)
    (hset : s.transit t = true → isThreadReady s t = false) : QueuedOnce c t s := by
  have hi := h.queues.index_lt t
  refine ⟨_, h.queues.rings.ring (.inl _) (mem_queues_inl.mpr hi), ?_⟩
  by_cases htr : s.transit t = true
  · have hm := h.transit t htr _ (mem_queues_inl.mpr hi)
    simp [hset htr, hm]
  · exact (h.ready t (by simpa using htr)).symm

variable {T W : Type} [DecidableEq T] [DecidableEq W]

def Call.act (t : T) : Call → Act T W
  | .suspend => .suspend t
  | .resume => .resume t

def runCalls (c : Config) (t : T) (s : Sched T W) (calls : List Call) : Option (Sched T W) :=
  calls.foldlM (fun s call => step c s (call.act t)) s

variable {c : Config} {main idle t : T} {s : Sched T W} {lists : Nat ⊕ W → List T}
  {prio : T → Int} {dummy : T → Bool} {r : Sched T W}

theorem not_queuedOnce_resume (h : QueuedOnce c t s) (hr : isThreadReady s t = true) :
    ¬ QueuedOnce c t ((kThreadSingleResume c s t).setTransit t false) := by
  obtain ⟨_, hring, hmem⟩ := h
  rintro ⟨_, hring', -⟩
  have hb : ∀ x : BitVec 8, x &&& 0x1f#8 = 0#8 → (x &&& ~~~threadSuspended) &&& 0x1f#8 = 0#8 := by
    decide
  have hready : isThreadReady (unmarkThread s t threadSuspended) t = true := by
    obtain ⟨hs, ht⟩ := isThreadReady_iff.mp hr
    refine isThreadReady_iff.mpr ⟨?_, ht⟩
    simpa [unmarkThread] using hb _ hs
  rw [kThreadSingleResume, if_pos hready] at hring'
  exact not_isRing_append hring (mem_map_of_mem (hmem.mpr hr)) _ hring'

theorem not_ready_of_suspend (h : kThreadSingleSuspend c s t = some r) :
    isThreadReady r t = false := by
  have hmark : ∃ r', r = markThread r' t threadSuspended := by
    unfold kThreadSingleSuspend at h
    split at h
    · obtain ⟨r', -, he⟩ := bind_eq_some_iff.mp h
      exact ⟨r', (some.inj he).symm⟩
    · exact ⟨s, (some.inj h).symm⟩
  obtain ⟨r', rfl⟩ := hmark
  exact not_ready_mark (by decide)

theorem Inv.call (h : Inv c idle lists s) (hne : t ≠ idle)
    (hset : s.transit t = true → isThreadReady s t = false) {call : Call}
    (hc : call = .resume → isThreadReady s t = false) :
    ∃ r, ReadyQ.step c s (call.act t) = some r ∧ (∃ lists', Inv c idle lists' r) ∧
      (r.transit t = true → isThreadReady r t = false) := by
  cases call with
  | suspend =>
    obtain ⟨r, hr, hi⟩ := h.suspend hne hset
    exact ⟨r, hr, hi, fun _ => not_ready_of_suspend hr⟩
  | resume =>
    refine ⟨_, rfl, h.unmark (by decide) (.inr (hc rfl)), fun hf => ?_⟩
    simp [Sched.setTransit] at hf

theorem runCalls_take_succ {calls : List Call} {n : Nat} {call : Call}
    (hc : calls[n]? = some call) (hr : runCalls c t s (calls.take n) = some r) :
    runCalls c t s (calls.take (n + 1)) = step c r (call.act t) := by
  have : calls.take (n + 1) = calls.take n ++ [call] := by
    rw [take_add_one, hc]
    rfl
  rw [this, runCalls]
  unfold runCalls at hr
  simp [hr]

theorem Inv.calls (h : Inv c idle lists s) (hne : t ≠ idle)
    (hset : s.transit t = true → isThreadReady s t = false) {calls : List Call}
    (hc : ∀ n r, calls[n]? = some .resume → runCalls c t s (calls.take n) = some r →
      isThreadReady r t = false) (n : Nat) :
    ∃ r, runCalls c t s (calls.take n) = some r ∧ (∃ lists', Inv c idle lists' r) ∧
      (r.transit t = true → isThreadReady r t = false) := by
  induction n with
  | zero => exact ⟨s, rfl, ⟨lists, h⟩, hset⟩
  | succ n ih =>
    obtain ⟨r, hr, ⟨lists', hi⟩, hset'⟩ := ih
    cases hn : calls[n]? with
    | none =>
      have hlen := List.getElem?_eq_none_iff.mp hn
      rw [take_of_length_le hlen] at hr
      rw [take_of_length_le (by omega)]
      exact ⟨r, hr, ⟨lists', hi⟩, hset'⟩
    | some call =>
      rw [runCalls_take_succ hn hr]
      exact hi.call hne hset' (fun he => hc n r (he ▸ hn) hr)

/-- In every state that is reached, after every number of calls of every sequence the thread is on
its ready queue once if ready and not at all otherwise, exactly when no call of the sequence
resumes it while it is ready. -/
theorem suspend_resume_queuedOnce_iff (links : Links (Node T W)) (hb : Boot c main idle prio dummy)
    (h : GuardedRun (step c) (Allowed c idle) (initSched c main idle links prio dummy) s)
    (hne : t ≠ idle) (hset : s.transit t = true → isThreadReady s t = false) (calls : List Call) :
    (∀ n, ∃ r, runCalls c t s (calls.take n) = some r ∧ QueuedOnce c t r) ↔
      ∀ n r, calls[n]? = some .resume → runCalls c t s (calls.take n) = some r →
        isThreadReady r t = false := by
  constructor
  · intro hq n r hn hr
    by_contra hready
    obtain ⟨r₁, hr₁, hq₁⟩ := hq n
    obtain ⟨_, hr₂, hq₂⟩ := hq (n + 1)
    obtain rfl : r = r₁ := some.inj (hr.symm.trans hr₁)
    rw [runCalls_take_succ hn hr] at hr₂
    refine not_queuedOnce_resume hq₁ (by simpa using hready) ?_
    rw [some.inj hr₂]
    exact hq₂
  · intro hc n
    obtain ⟨_, hi⟩ := Inv.of_run hb h
    obtain ⟨r, hr, ⟨_, hi'⟩, hset'⟩ := hi.calls hne hset hc n
    exact ⟨r, hr, hi'.queuedOnce hset'⟩

/-- The main thread is resumed although it was never suspended. Its node then points at itself,
and when it is suspended it stays at the head of its queue and is still the next thread to run. -/
theorem resumed_main_thread_stays_queued : ∃ s r₁ r₂ : Sched Nat Unit,
      s = initSched ⟨1, 3⟩ 0 1 ⟨id, id⟩ (fun t => if t = 1 then 1 else 0) (fun _ => false) ∧
      isThreadReady s 0 = true ∧ QueuedOnce ⟨1, 3⟩ 0 s ∧
      runCalls ⟨1, 3⟩ 0 s [.resume] = some r₁ ∧ ¬ QueuedOnce ⟨1, 3⟩ 0 r₁ ∧
      r₁.links.next (.thread 0) = .thread 0 ∧
      runCalls ⟨1, 3⟩ 0 s [.resume, .suspend] = some r₂ ∧ isThreadReady r₂ 0 = false ∧
      r₂.links.next (.readyQ 1) = .thread 0 ∧ getNextReadyThread r₂ = 0 := by
  have hb : Boot ⟨1, 3⟩ 0 1 (fun t : Nat => if t = 1 then 1 else 0) (fun _ => false) := by
    refine ⟨by decide, ?_, rfl, rfl, rfl⟩
    intro t ht
    simp [Config.validPrio, ht]
  have hq := (Inv.init (W := Unit) ⟨id, id⟩ hb).queuedOnce (t := 0) (fun hf => by cases hf)
  exact ⟨_, _, _, rfl, rfl, hq, rfl, not_queuedOnce_resume hq rfl, rfl, rfl, rfl, rfl, rfl⟩

theorem suspend_resume_queuedOnce_iff_twice :
    ∃ r, runCalls (W := Unit) ⟨1, 3⟩ 0 (initSched ⟨1, 3⟩ 0 1 ⟨id, id⟩
        (fun t => if t = 1 then 1 else 0) (fun _ => false))
        ([.suspend, .suspend, .resume, .suspend].take 3) = some r ∧ QueuedOnce ⟨1, 3⟩ 0 r ∧
      isThreadReady r 0 = true := by
  have hb : Boot ⟨1, 3⟩ 0 1 (fun t : Nat => if t = 1 then 1 else 0) (fun _ => false) := by
    refine ⟨by decide, ?_, rfl, rfl, rfl⟩
    intro t ht
    simp [Config.validPrio, ht]
  obtain ⟨r, hr, hq⟩ := (suspend_resume_queuedOnce_iff (W := Unit) (t := 0) ⟨id, id⟩ hb .refl
    (by decide) (fun hf => by cases hf) [.suspend, .suspend, .resume, .suspend]).mpr (fun n r hn hr => by
      obtain rfl : n = 2 := by
        rcases n with _ | _ | _ | _ | n <;> simp at hn ⊢
      cases hr
      rfl) 3
  refine ⟨r, hr, hq, ?_⟩
  cases hr
  rfl

end Zephyr.ReadyQ
