import Zephyr.MutexRuns

/-! The order of the wait queues, which a later change of a priority does not follow, and priority
inheritance on one mutex between threads that do not change their priorities. -/

namespace Zephyr.Mutex

section

variable {T M : Type} [DecidableEq T] [DecidableEq M] {ceiling : Int} {s s' : State T M}
  {a : Action T M} {t o : T} {m : M} {p : Int}

def Sorted (s : State T M) : Prop := ∀ m, ByPriority s.prio (s.mutex m).waitQ

def priorityChange (ceiling : Int) (s : State T M) : Action T M → Option (T × Int)
  | .lock t m timeout => (s.mutex m).owner.bind fun o =>
    if (s.mutex m).lockCount = 0 ∨ o = t ∨ timeout = .noWait then none
    else some (o, min (s.prio o) (max ceiling (s.prio t)))
  | .resume t => match s.thread t with
    | .returning m gotMutex =>
      if gotMutex = 0 then none else (s.mutex m).owner.map (·, timedOutPrio ceiling s m)
    | _ => none
  | .prioritySet t p => some (t, p)
  | .unlock .. | .timeout _ => none

def StaysInPlace (s : State T M) (t : T) (p : Int) : Prop :=
  ∀ m, ∀ i : Fin (s.mutex m).waitQ.length, (s.mutex m).waitQ[i] = t →
    (∀ y ∈ (s.mutex m).waitQ.take i, s.prio y ≤ p) ∧
      ∀ y ∈ (s.mutex m).waitQ.drop (i + 1), p ≤ s.prio y

def KeepsPlaces (ceiling : Int) (s : State T M) (a : Action T M) : Prop :=
  ∀ c ∈ priorityChange ceiling s a, StaysInPlace s c.1 c.2

instance [Fintype M] : Decidable (StaysInPlace s t p) := by
  unfold StaysInPlace
  infer_instance

instance [Fintype M] (a : Action T M) : Decidable (KeepsPlaces ceiling s a) := by
  unfold KeepsPlaces
  infer_instance

omit [DecidableEq T] [DecidableEq M] in
theorem staysInPlace_of_notMem (h : ∀ m, t ∉ (s.mutex m).waitQ) (p : Int) : StaysInPlace s t p :=
  fun m i hi => absurd (hi ▸ List.getElem_mem i.isLt) (h m)

omit [DecidableEq M] in
theorem sorted_threadPrioritySet_iff (hs : Inv s) (h : Sorted s) :
    Sorted (s.threadPrioritySet t p) ↔ StaysInPlace s t p :=
  forall_congr' fun m => byPriority_update_iff (h m) (hs.nodup m)

theorem sorted_pendCurrentThread_iff {w : Wait} :
    Sorted (pendCurrentThread s t m w) ↔ Sorted s := by
  constructor
  · intro h m'
    have hm := h m'
    rcases eq_or_ne m' m with rfl | hne
    · refine ByPriority.sublist ?_ (sublist_pendThread s.prio t _)
      simpa [pendCurrentThread] using hm
    · simpa [pendCurrentThread, hne] using hm
  · intro h m'
    rcases eq_or_ne m' m with rfl | hne
    · simpa [pendCurrentThread] using (h m').pendThread
    · simpa [pendCurrentThread, hne] using h m'

omit [DecidableEq T] in
theorem Sorted.setMutex {k : KMutex T} (h : Sorted s)
    (hk : k.waitQ.Sublist (s.mutex m).waitQ) : Sorted (s.setMutex m k) := by
  intro m'
  rcases eq_or_ne m' m with rfl | hne
  · simpa using ByPriority.sublist (h m') hk
  · simpa [hne] using h m'

omit [DecidableEq M] in
theorem Sorted.unlocking (hs : Inv s) (h : Sorted s) (ht : s.thread t = .running) (p : Int) :
    Sorted (s.threadPrioritySet t p) :=
  (sorted_threadPrioritySet_iff hs h).mpr (staysInPlace_of_notMem (hs.notMem_of_running ht) p)

theorem sorted_step_iff (hs : Inv s) (h : Sorted s) (ha : Allowed s a)
    (hstep : step ceiling s a = some s') : Sorted s' ↔ KeepsPlaces ceiling s a := by
  cases stepped_of_step hstep with
  | locked t m w hl =>
    refine iff_of_true (h.setMutex (.refl _)) ?_
    rcases hl with hl | hl <;> simp [KeepsPlaces, priorityChange, hl]
  | busy t m => exact iff_of_true h (by simp [KeepsPlaces, priorityChange])
  | contended t m w o hc ho hne hw =>
    rw [sorted_pendCurrentThread_iff, sorted_threadPrioritySet_iff hs h]
    simp [KeepsPlaces, priorityChange, ho, hc, hne, hw]
  | nested t m hc =>
    exact iff_of_true (h.setMutex (.refl _)) (by simp [KeepsPlaces, priorityChange])
  | handedOver t m o n q hc ho hq =>
    obtain rfl : o = t := Option.some.inj (ho.symm.trans ha.2.2)
    refine iff_of_true ?_ (by simp [KeepsPlaces, priorityChange])
    have hsort : Sorted ((s.threadPrioritySet o (s.mutex m).ownerOrigPrio).setThread n
      (.returning m 0)) := h.unlocking hs ha.1 _
    exact hsort.setMutex (by simp [hq])
  | freed t m o hc ho hq =>
    obtain rfl : o = t := Option.some.inj (ho.symm.trans ha.2.2)
    refine iff_of_true ?_ (by simp [KeepsPlaces, priorityChange])
    exact (h.unlocking hs ha.1 _).setMutex (.refl _)
  | timedOut t m ht =>
    refine iff_of_true ?_ (by simp [KeepsPlaces, priorityChange])
    exact h.setMutex List.erase_sublist
  | gotMutex t m ht => exact iff_of_true h (by simp [KeepsPlaces, priorityChange, ht])
  | gaveUp t m o g ht hg ho =>
    refine (sorted_threadPrioritySet_iff hs h).trans ?_
    simp [KeepsPlaces, priorityChange, ht, hg, ho]
  | prioritySet t p =>
    rw [sorted_threadPrioritySet_iff hs h]
    simp [KeepsPlaces, priorityChange]

/-- The comment in `k_mutex_unlock`: the new owner has no lower priority than who still waits. -/
def NewOwnerFirst (ceiling : Int) (s : State T M) : Prop :=
  ∀ t m n q s', Allowed s (.unlock t m) → (s.mutex m).lockCount = 1 → (s.mutex m).waitQ = n :: q →
    step ceiling s (.unlock t m) = some s' → (s'.mutex m).owner = some n ∧
      (s'.mutex m).waitQ = q ∧ ∀ w ∈ q, s'.prio n ≤ s'.prio w

theorem Sorted.newOwnerFirst (hs : Inv s) (h : Sorted s) : NewOwnerFirst ceiling s := by
  intro t m n q s' ha hc hq hstep
  cases stepped_of_step hstep with
  | nested _ _ hc' => simp [hc] at hc'
  | freed _ _ o _ _ hq' => simp [hq] at hq'
  | handedOver _ _ o n' q' _ ho hq' =>
    obtain ⟨rfl, rfl⟩ := List.cons_eq_cons.mp (hq.symm.trans hq')
    obtain rfl : o = t := Option.some.inj (ho.symm.trans ha.2.2)
    have hsort : ByPriority _ (s.mutex m).waitQ := h.unlocking hs ha.1 (s.mutex m).ownerOrigPrio m
    rw [hq] at hsort
    exact ⟨by simp, by simp, (List.pairwise_cons.mp hsort).1⟩

end

open Function List

variable {T : Type} [DecidableEq T] {ceiling : Int} {base : T → Int} {s s' : State T Unit}
  {a : Action T Unit} {t o : T}

def inheritedPrio (ceiling : Int) (s : State T Unit) : Int :=
  match ((s.mutex ()).waitQ.map s.prio).min? with
  | none => (s.mutex ()).ownerOrigPrio
  | some highest => min (s.mutex ()).ownerOrigPrio (max ceiling highest)

/-- Priority inheritance for threads of priorities `base`. -/
structure Inherits (ceiling : Int) (base : T → Int) (s : State T Unit) : Prop where
  inherited : (∀ t, timedOut s () t = false) →
    ∀ o, (s.mutex ()).owner = some o → s.prio o = inheritedPrio ceiling s
  raised : ∀ o, (s.mutex ()).owner = some o → s.prio o ≤ (s.mutex ()).ownerOrigPrio
  orig : ∀ o, (s.mutex ()).owner = some o → (s.mutex ()).ownerOrigPrio = base o
  restored : ∀ t, (s.mutex ()).owner ≠ some t → s.prio t = base t

def Unchanged : Action T Unit → Prop
  | .prioritySet .. => False
  | _ => True

def WithinCeiling (ceiling : Int) (s : State T Unit) : Action T Unit → Prop
  | .resume t => timedOut s () t → (s.mutex ()).waitQ = [] ∨ ceiling ≤ (s.mutex ()).ownerOrigPrio
  | _ => True

instance (a : Action T Unit) : Decidable (Unchanged a) := by
  cases a <;> unfold Unchanged <;> infer_instance

instance (a : Action T Unit) : Decidable (WithinCeiling ceiling s a) := by
  cases a <;> unfold WithinCeiling <;> infer_instance

/-- A priority that is not below `orig` nor below any waiter within the ceiling, and higher than
`orig` only for a thread that waits or has yet to see its timeout. -/
structure RaisedFor (ceiling : Int) (base : T → Int) (orig : Int) (waiting late : T → Prop)
    (p : Int) : Prop where
  raised : p ≤ orig
  above : ∀ w, waiting w → p ≤ max ceiling (base w)
  origin : p = orig ∨ ∃ w, (waiting w ∨ late w) ∧ p = max ceiling (base w)

section

variable {orig p : Int} {waiting waiting' late late' : T → Prop}

omit [DecidableEq T]

theorem RaisedFor.refl (h : ∀ w, waiting w → orig ≤ max ceiling (base w)) :
    RaisedFor ceiling base orig waiting late orig :=
  ⟨le_rfl, h, .inl rfl⟩

theorem RaisedFor.mono (h : RaisedFor ceiling base orig waiting late p)
    (hw : ∀ w, waiting' w → waiting w) (hl : ∀ w, waiting w ∨ late w → waiting' w ∨ late' w) :
    RaisedFor ceiling base orig waiting' late' p :=
  ⟨h.raised, fun w hm => h.above w (hw w hm),
    h.origin.imp_right fun ⟨w, hm, hp⟩ => ⟨w, hl w hm, hp⟩⟩

theorem RaisedFor.contend (h : RaisedFor ceiling base orig waiting late p) (t : T) :
    RaisedFor ceiling base orig (fun w => w = t ∨ waiting w) late
      (min p (max ceiling (base t))) := by
  have hle := h.raised
  refine ⟨by omega, ?_, ?_⟩
  · rintro w (rfl | hw)
    · omega
    · have := h.above w hw
      omega
  · rcases le_total p (max ceiling (base t)) with hle | hle
    · rw [min_eq_left hle]
      exact h.origin.imp_right fun ⟨w, hm, hp⟩ => ⟨w, hm.imp_left .inr, hp⟩
    · rw [min_eq_right hle]
      exact .inr ⟨t, .inl (.inl rfl), rfl⟩

theorem RaisedFor.recompute {w : T} (hc : ceiling ≤ orig) (hw : waiting w)
    (hfirst : ∀ v, waiting v → base w ≤ base v) :
    RaisedFor ceiling base orig waiting late (max ceiling (min (base w) orig)) := by
  refine ⟨by omega, fun v hv => ?_, ?_⟩
  · have := hfirst v hv
    omega
  · rcases le_total orig (base w) with hle | hle
    · left
      grind
    · right
      exact ⟨w, .inl hw, by grind⟩

theorem RaisedFor.eq_of_min? {q : List T} (h : RaisedFor ceiling base orig (· ∈ q) late p)
    (hl : ∀ w, ¬ late w) : p = match (q.map base).min? with
      | none => orig
      | some highest => min orig (max ceiling highest) := by
  have hle := h.raised
  split
  · rename_i hq
    obtain rfl : q = [] := by simpa using hq
    rcases h.origin with hp | ⟨w, hw, -⟩
    · exact hp
    · simp [hl w] at hw
  · rename_i highest hq
    obtain ⟨hmem, hmin⟩ := min?_eq_some_iff.mp hq
    obtain ⟨v, hv, rfl⟩ := mem_map.mp hmem
    have hup := h.above v hv
    rcases h.origin with hp | ⟨w, hw, hp⟩
    · grind
    · have := hmin _ (mem_map_of_mem (hw.resolve_right (hl w)))
      grind

end

/-- The priorities `prio` of threads whose own are `base`, around the mutex `k`. -/
structure Boosted (ceiling : Int) (base : T → Int) (k : KMutex T) (prio : T → Int)
    (late : T → Prop) : Prop where
  apart : ∀ t, late t → k.owner ≠ some t
  restored : ∀ t, k.owner ≠ some t → prio t = base t
  orig : ∀ o, k.owner = some o → k.ownerOrigPrio = base o
  raised : ∀ o, k.owner = some o →
    RaisedFor ceiling base k.ownerOrigPrio (· ∈ k.waitQ) late (prio o)

section

variable {k : KMutex T} {prio : T → Int} {late late' : T → Prop} {q : List T} {n : T} {c : Nat}

section

variable (h : Boosted ceiling base k prio late)
include h

omit [DecidableEq T] in
theorem Boosted.count (c : Nat) : Boosted ceiling base { k with lockCount := c } prio late :=
  { h with }

theorem Boosted.others (ho : k.owner = some o) (p : Int)
    (u : T) (hu : k.owner ≠ some u) : update prio o p u = base u := by
  have hne : u ≠ o := by
    rintro rfl
    exact hu ho
  rw [update_of_ne hne, h.restored u hu]

omit [DecidableEq T] in
theorem Boosted.acquire (hown : k.owner = none)
    (hq : k.waitQ = []) (ht : ¬ late t) : Boosted ceiling base
      { k with ownerOrigPrio := prio t, lockCount := c, owner := some t } prio late := by
  have hbase : ∀ u, prio u = base u := fun u => h.restored u (by simp [hown])
  refine ⟨?_, fun u _ => hbase u, ?_, ?_⟩
  · rintro u hu ⟨rfl⟩
    exact ht hu
  · rintro o ⟨rfl⟩
    exact hbase t
  · rintro o ⟨rfl⟩
    exact .refl (by simp [hq])

theorem Boosted.contend (ho : k.owner = some o)
    (hne : o ≠ t) (hq : ∀ x, x ∈ q ↔ x = t ∨ x ∈ k.waitQ) :
    Boosted ceiling base { k with waitQ := q }
      (update prio o (min (prio o) (max ceiling (prio t)))) late := by
  refine ⟨h.apart, h.others ho _, h.orig, fun o' ho' => ?_⟩
  · obtain rfl : o' = o := Option.some.inj (ho'.symm.trans ho)
    have hbase : prio t = base t := h.restored t (by simpa [ho] using hne)
    simpa only [update_self, hbase, hq] using (h.raised o' ho).contend t

theorem Boosted.release (ho : k.owner = some o) : update prio o k.ownerOrigPrio = base := by
  funext u
  rcases eq_or_ne u o with rfl | hne
  · rw [update_self, h.orig u ho]
  · rw [update_of_ne hne, h.restored u (by simpa [ho] using hne.symm)]

end

omit [DecidableEq T] in
theorem Boosted.handOver (hq : ByPriority base (n :: q)) (hn : ¬ late n) :
    Boosted ceiling base ⟨q, some n, c, base n⟩ base late := by
  refine ⟨?_, fun _ _ => rfl, ?_, ?_⟩
  · rintro u hu ⟨rfl⟩
    exact hn hu
  · rintro o ⟨rfl⟩
    rfl
  · rintro o ⟨rfl⟩
    exact .refl fun w hw => ((pairwise_cons.mp hq).1 w hw).trans (le_max_right ..)

theorem Boosted.expire (h : Boosted ceiling base k prio late) (ht : k.owner ≠ some t)
    (hl : ∀ u, late' u ↔ u = t ∨ late u) :
    Boosted ceiling base { k with waitQ := k.waitQ.erase t } prio late' := by
  refine ⟨fun u hu => ?_, h.restored, h.orig, fun o ho => ?_⟩
  · rcases (hl u).mp hu with rfl | hu
    · exact ht
    · exact h.apart u hu
  · refine (h.raised o ho).mono (fun w => mem_of_mem_erase) fun w hw => ?_
    rw [hl]
    rcases eq_or_ne w t with rfl | hne
    · exact .inr (.inl rfl)
    · exact hw.imp (mem_erase_of_ne hne).mpr .inr

theorem Boosted.giveUp (h : Boosted ceiling base k prio late) (ho : k.owner = some o) {p : Int}
    (hl : ∀ u, late' u → late u)
    (hp : RaisedFor ceiling base k.ownerOrigPrio (· ∈ k.waitQ) late' p) :
    Boosted ceiling base k (update prio o p) late' := by
  refine ⟨fun u hu => h.apart u (hl u hu), h.others ho p, h.orig, fun o' ho' => ?_⟩
  · obtain rfl : o' = o := Option.some.inj (ho'.symm.trans ho)
    rwa [update_self]

end

theorem timedOut_update_eq {c : ThreadState Unit} (ht : timedOut s () t = false)
    (hc : ∀ m g, c = .returning m g → g = 0) (h : s'.thread = update s.thread t c) :
    timedOut s' () = timedOut s () := by
  funext u
  rw [Bool.eq_iff_iff, timedOut_update_iff hc h]
  refine ⟨fun hu => hu.2, fun hu => ⟨?_, hu⟩⟩
  rintro rfl
  simp [ht] at hu

omit [DecidableEq T] in
theorem raisedFor_timedOutPrio (hsort : ByPriority s.prio (s.mutex ()).waitQ)
    (hbase : ∀ w ∈ (s.mutex ()).waitQ, s.prio w = base w)
    (hc : (s.mutex ()).waitQ = [] ∨ ceiling ≤ (s.mutex ()).ownerOrigPrio) {late : T → Prop} :
    RaisedFor ceiling base (s.mutex ()).ownerOrigPrio (· ∈ (s.mutex ()).waitQ) late
      (timedOutPrio ceiling s ()) := by
  unfold timedOutPrio
  cases hq : (s.mutex ()).waitQ with
  | nil => exact .refl (by simp)
  | cons w q =>
    rw [hq] at hsort hbase
    have hw : ∀ v ∈ w :: q, base w ≤ base v := by
      intro v hv
      rcases mem_cons.mp hv with rfl | hv
      · exact le_rfl
      · rw [← hbase w mem_cons_self, ← hbase v (mem_cons_of_mem w hv)]
        exact (pairwise_cons.mp hsort).1 v hv
    simp only [head?_cons, hbase w mem_cons_self]
    exact .recompute (hc.resolve_left (by simp [hq])) mem_cons_self hw

theorem Boosted.step (hs : Inv s) (hsort : Sorted s)
    (h : Boosted ceiling base (s.mutex ()) s.prio (timedOut s () ·))
    (ha : Allowed s a) (hu : Unchanged a) (hc : WithinCeiling ceiling s a)
    (hstep : step ceiling s a = some s') :
    Boosted ceiling base (s'.mutex ()) s'.prio (timedOut s' () ·) := by
  have hwait : ∀ w ∈ (s.mutex ()).waitQ, s.prio w = base w := fun w hw =>
    h.restored w fun ho => hs.apart () w ho hw
  have hrun : ∀ {t}, s.thread t = .running → timedOut s () t = false := fun ht => by
    simp [timedOut, ht]
  cases stepped_of_step hstep with
  | locked t m w hl =>
    rw [timedOut_update_eq (hrun ha) (c := .running) (by simp) rfl]
    by_cases hown : (s.mutex ()).owner = none
    · have hcount : (s.mutex ()).lockCount = 0 := (hs.counted ()).mpr hown
      simpa [hcount] using h.acquire hown (hs.free () hown) (by simp [hrun ha])
    · have hcount : (s.mutex ()).lockCount ≠ 0 := fun hz => hown ((hs.counted ()).mp hz)
      have ho : (s.mutex ()).owner = some t := hl.resolve_left hcount
      simpa [hcount, ← ho] using h.count _
  | busy t m => rwa [timedOut_update_eq (hrun ha) (c := .running) (by simp) rfl]
  | contended t m w o hc ho hne hw =>
    rw [timedOut_update_eq (hrun ha) (by simp) rfl]
    exact h.contend ho hne fun x => mem_pendThread
  | nested t m hc => exact h.count _
  | handedOver t m o n q hc ho hq =>
    have hn : timedOut s () n = false := by
      obtain ⟨_, hw⟩ := (hs.waits () n).mp (by simp [hq])
      simp [timedOut, hw]
    rw [timedOut_update_eq (c := .returning () 0) hn (by simp) rfl]
    have hprio := h.release ho
    have hsort := hsort.unlocking hs ha.1 (s.mutex m).ownerOrigPrio m
    obtain rfl : o = t := Option.some.inj (ho.symm.trans ha.2.2)
    simp only [State.threadPrioritySet_prio, State.threadPrioritySet_mutex, hprio, hq] at hsort
    simp only [State.setMutex_mutex, State.setMutex_prio, State.setThread_prio,
      State.threadPrioritySet_prio, hprio, update_self]
    exact .handOver hsort (by simp [hn])
  | freed t m o hc ho hq =>
    have hprio := h.release ho
    refine ⟨fun u hu he => ?_, fun u _ => congrFun hprio u, fun o' ho' => ?_, fun o' ho' => ?_⟩
    · simp at he
    · simp at ho'
    · simp at ho'
  | timedOut t m ht =>
    have hmem := (hs.waits m t).mpr ⟨true, ht⟩
    refine h.expire (fun ho => hs.apart m t ho hmem) fun u => ?_
    rcases eq_or_ne u t with rfl | hne
    · simp [timedOut, handleTimeout, eAgain]
    · simp [timedOut, handleTimeout, hne]
  | gotMutex t m ht =>
    rwa [timedOut_update_eq (c := .running) (by simp [timedOut, ht]) (by simp) rfl]
  | gaveUp t m o g ht hg ho =>
    have hlate : timedOut s () t := timedOut_iff.mpr ⟨g, hg, ht⟩
    refine h.giveUp ho (fun u hu => ?_) (raisedFor_timedOutPrio (hsort ()) hwait (hc hlate))
    exact ((timedOut_update_iff (c := .running) (by simp) rfl).mp hu).2
  | prioritySet t p => exact hu.elim

theorem priorityChange_owner (hu : Unchanged a) {c : T × Int}
    (hc : priorityChange ceiling s a = some c) : (s.mutex ()).owner = some c.1 := by
  cases a with
  | lock t m w =>
    obtain ⟨o, ho, hc⟩ := Option.bind_eq_some_iff.mp hc
    split_ifs at hc
    cases hc
    exact ho
  | resume t =>
    simp only [priorityChange] at hc
    split at hc
    · split_ifs at hc
      obtain ⟨o, ho, rfl⟩ := Option.map_eq_some_iff.mp hc
      exact ho
    · simp at hc
  | prioritySet t p => exact hu.elim
  | unlock t m => simp [priorityChange] at hc
  | timeout t => simp [priorityChange] at hc

omit [DecidableEq T] in
theorem inherits_of_boosted (hs : Inv s)
    (h : Boosted ceiling base (s.mutex ()) s.prio (timedOut s () ·)) : Inherits ceiling base s := by
  refine ⟨fun hl o ho => ?_, fun o ho => (h.raised o ho).raised, h.orig, h.restored⟩
  have hmap : (s.mutex ()).waitQ.map s.prio = (s.mutex ()).waitQ.map base :=
    map_congr_left fun w hw => h.restored w fun ho => hs.apart () w ho hw
  rw [inheritedPrio, hmap]
  exact (h.raised o ho).eq_of_min? (by simp [hl])

theorem inherits_step_iff (hs : Inv s) (hsort : Sorted s)
    (h : Boosted ceiling base (s.mutex ()) s.prio (timedOut s () ·)) (ha : Allowed s a)
    (hu : Unchanged a) (hstep : step ceiling s a = some s') :
    Inherits ceiling base s' ↔ WithinCeiling ceiling s a := by
  constructor
  · intro h'
    cases stepped_of_step hstep with
    | gaveUp t m o g ht hg ho =>
      -- with a waiter left, the owner is at the ceiling or below it
      rintro -
      by_contra hc
      obtain ⟨hq, hlt⟩ := not_or.mp hc
      obtain ⟨w, q, hq⟩ := exists_cons_of_ne_nil hq
      have hle := h'.raised o ho
      simp [timedOutPrio, hq] at hle
      omega
    | gotMutex t m ht =>
      intro hlate
      simp [timedOut, ht] at hlate
    | _ => trivial
  · intro hc
    exact inherits_of_boosted (hs.step ha hstep) (h.step hs hsort ha hu hc hstep)

end Zephyr.Mutex
