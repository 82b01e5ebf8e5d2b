import Zephyr.Run
import Zephyr.WaitQ

/-! Mutexes of `kernel/mutex.c`: ownership, hand-over and priority inheritance, for any number of
threads and mutexes. A thread that `_Swap` put to sleep finishes its call in a step of its own. A
lock that timed out adjusts the priority of the owner it finds. -/

namespace Zephyr.Mutex

def eAgain : Int := 11
def eBusy : Int := 16

/-- `mutex->owner_orig_prio` is left as it is until the first lock. -/
structure KMutex (T : Type) where
  waitQ : List T := []
  owner : Option T := none
  lockCount : Nat := 0
  ownerOrigPrio : Int

inductive ThreadState (M : Type) where
  | running
  | waiting (mutex : M) (timed : Bool)
  -- off the wait queue, with the value `_Swap` will return to it
  | returning (mutex : M) (gotMutex : Int)
deriving DecidableEq

structure State (T M : Type) where
  mutex : M → KMutex T
  prio : T → Int
  thread : T → ThreadState M
  returned : List (T × M × Int)

inductive Action (T M : Type) where
  | lock (t : T) (m : M) (timeout : Wait)
  | unlock (t : T) (m : M)
  | timeout (t : T)
  | resume (t : T)
  | prioritySet (t : T) (prio : Int)

def init {T M : Type} (prio : T → Int) (ownerOrigPrio : M → Int) : State T M where
  mutex m := { ownerOrigPrio := ownerOrigPrio m }
  prio := prio
  thread _ := .running
  returned := []

section

variable {T M : Type} [DecidableEq T] [DecidableEq M]

def getNewPrioWithCeiling (ceiling prio : Int) : Int := if ceiling ≤ prio then prio else ceiling

def newPrioForInheritance (ceiling target limit : Int) : Int :=
  getNewPrioWithCeiling ceiling (if target < limit then target else limit)

variable (ceiling : Int) (s : State T M) (t : T) (m : M)

@[simps -fullyApplied] def State.setMutex (mutex : KMutex T) : State T M :=
  { s with mutex := Function.update s.mutex m mutex }

@[simps -fullyApplied] def State.setThread (state : ThreadState M) : State T M :=
  { s with thread := Function.update s.thread t state }

/-- `_thread_priority_set`: a waiting thread keeps its place in the wait queue. -/
@[simps -fullyApplied] def State.threadPrioritySet (prio : Int) : State T M :=
  { s with prio := Function.update s.prio t prio }

@[simps -fullyApplied] def State.ret (code : Int) : State T M :=
  { s.setThread t .running with returned := s.returned ++ [(t, m, code)] }

def adjustOwnerPrio (newPrio : Int) : Option (State T M) :=
  match (s.mutex m).owner with
  | none => none
  | some owner => if s.prio owner ≠ newPrio then s.threadPrioritySet owner newPrio else s

def pendCurrentThread (timeout : Wait) : State T M :=
  (s.setMutex m { s.mutex m with waitQ := pendThread s.prio t (s.mutex m).waitQ }).setThread t
    (.waiting m (timeout ≠ .forever))

def kMutexLock (timeout : Wait) : Option (State T M) :=
  let mutex := s.mutex m
  if mutex.lockCount = 0 ∨ mutex.owner = some t then
    (s.setMutex m { mutex with
      ownerOrigPrio := if mutex.lockCount = 0 then s.prio t else mutex.ownerOrigPrio
      lockCount := mutex.lockCount + 1
      owner := some t }).ret t m 0
  else if timeout = .noWait then s.ret t m (-eBusy)
  else do
    let owner ← mutex.owner
    let newPrio := newPrioForInheritance ceiling (s.prio t) (s.prio owner)
    let s ← (if newPrio < s.prio owner then adjustOwnerPrio s m newPrio else s)
    pendCurrentThread s t m timeout

def kMutexLockResume (gotMutex : Int) : Option (State T M) :=
  if gotMutex = 0 then s.ret t m 0
  else do
    let origPrio := (s.mutex m).ownerOrigPrio
    let newPrio := match (s.mutex m).waitQ.head? with
      | none => origPrio
      | some waiter => newPrioForInheritance ceiling (s.prio waiter) origPrio
    let s ← adjustOwnerPrio s m newPrio
    s.ret t m (-eAgain)

def kMutexUnlock : Option (State T M) :=
  let mutex := s.mutex m
  let lockCount := mutex.lockCount - 1
  if lockCount ≠ 0 then s.setMutex m { mutex with lockCount }
  else do
    let s ← adjustOwnerPrio s m mutex.ownerOrigPrio
    match mutex.waitQ with
    | newOwner :: waitQ =>
      (s.setThread newOwner (.returning m 0)).setMutex m
        { waitQ, owner := some newOwner, lockCount := lockCount + 1,
          ownerOrigPrio := s.prio newOwner }
    | [] => s.setMutex m { mutex with lockCount, owner := none }

def handleTimeout : State T M :=
  (s.setMutex m { s.mutex m with waitQ := (s.mutex m).waitQ.erase t }).setThread t
    (.returning m (-eAgain))

def step : Action T M → Option (State T M)
  | .lock t m timeout => kMutexLock ceiling s t m timeout
  | .unlock _ m => kMutexUnlock s m
  | .timeout t => match s.thread t with
    | .waiting m true => handleTimeout s t m
    | _ => none
  | .resume t => match s.thread t with
    | .returning m gotMutex => kMutexLockResume ceiling s t m gotMutex
    | _ => none
  | .prioritySet t prio => s.threadPrioritySet t prio

/-- Only a running thread calls, and an unlock meets the assertions of `k_mutex_unlock`. -/
def Allowed : Action T M → Prop
  | .lock t _ _ => s.thread t = .running
  | .unlock t m => s.thread t = .running ∧ 0 < (s.mutex m).lockCount ∧ (s.mutex m).owner = some t
  | _ => True

instance {s : State T M} (a : Action T M) : Decidable (Allowed s a) := by
  cases a <;> unfold Allowed <;> infer_instance

end

open Function Option

variable {T M : Type} [DecidableEq M] {ceiling : Int} {s s' : State T M} {a : Action T M} {t o : T}
  {m : M} {p : Int} {k : KMutex T}

theorem owner_update (h : s'.mutex = update s.mutex m k)
    (hk : k.owner = none → (s.mutex m).owner = none) (m' : M) (hn : (s'.mutex m').owner = none) :
    (s.mutex m').owner = none := by
  rcases eq_or_ne m' m with rfl | hne
  · exact hk (by simpa [h] using hn)
  · simpa [h, hne] using hn

structure Inv (s : State T M) : Prop where
  counted : ∀ m, (s.mutex m).lockCount = 0 ↔ (s.mutex m).owner = none
  free : ∀ m, (s.mutex m).owner = none → (s.mutex m).waitQ = []
  nodup : ∀ m, (s.mutex m).waitQ.Nodup
  waits : ∀ m t, t ∈ (s.mutex m).waitQ ↔ ∃ timed, s.thread t = .waiting m timed
  apart : ∀ m o, (s.mutex m).owner = some o → o ∉ (s.mutex m).waitQ

theorem Inv.setMutex (hs : Inv s) (hq : k.waitQ = (s.mutex m).waitQ)
    (hc : k.lockCount = 0 ↔ k.owner = none) (hf : k.owner = none → k.waitQ = [])
    (ho : ∀ o, k.owner = some o → o ∉ k.waitQ) : Inv (s.setMutex m k) := by
  have hm : ∀ m', ((s.setMutex m k).mutex m').waitQ = (s.mutex m').waitQ := by
    intro m'
    rcases eq_or_ne m' m with rfl | hne
    · simp [hq]
    · simp [hne]
  constructor
  case nodup => exact fun m' => (hm m').symm ▸ hs.nodup m'
  case waits => exact fun m' u => (hm m').symm ▸ hs.waits m' u
  all_goals
    intro m'
    rcases eq_or_ne m' m with rfl | hne
    · simpa
    · simpa [hne] using by first
        | exact hs.counted m' | exact hs.free m' | exact hs.apart m'

/-- The timeout of a wait for `m` has expired, and the thread has yet to run. -/
def timedOut (s : State T M) (m : M) (t : T) : Bool :=
  match s.thread t with
  | .returning m' gotMutex => m' = m ∧ gotMutex ≠ 0
  | _ => false

theorem timedOut_iff : timedOut s m t ↔ ∃ g, g ≠ 0 ∧ s.thread t = .returning m g := by
  unfold timedOut
  cases s.thread t with
  | returning m' g => simp [and_comm]
  | _ => simp

variable [DecidableEq T]

theorem newPrioForInheritance_eq (ceiling target limit : Int) :
    newPrioForInheritance ceiling target limit = max ceiling (min target limit) := by
  grind [newPrioForInheritance, getNewPrioWithCeiling]

omit [DecidableEq M] in
theorem adjustOwnerPrio_eq (ho : (s.mutex m).owner = some o) :
    adjustOwnerPrio s m p = some (s.threadPrioritySet o p) := by
  simp only [adjustOwnerPrio, ho]
  split_ifs with hp
  · rfl
  · rw [State.threadPrioritySet, ← not_ne_iff.mp hp, update_eq_self]

omit [DecidableEq M] in
theorem adjustOwnerPrio_eq_some (h : adjustOwnerPrio s m p = some s') :
    ∃ o, (s.mutex m).owner = some o ∧ s' = s.threadPrioritySet o p := by
  cases ho : (s.mutex m).owner with
  | none => simp [adjustOwnerPrio, ho] at h
  | some o =>
    rw [adjustOwnerPrio_eq ho, some_inj] at h
    exact ⟨o, rfl, h.symm⟩

def timedOutPrio (ceiling : Int) (s : State T M) (m : M) : Int :=
  match (s.mutex m).waitQ.head? with
  | none => (s.mutex m).ownerOrigPrio
  | some waiter => max ceiling (min (s.prio waiter) (s.mutex m).ownerOrigPrio)

omit [DecidableEq M] in
theorem contended_prio (ho : (s.mutex m).owner = some o) :
    (if newPrioForInheritance ceiling (s.prio t) (s.prio o) < s.prio o then
      adjustOwnerPrio s m (newPrioForInheritance ceiling (s.prio t) (s.prio o)) else some s) =
    some (s.threadPrioritySet o (min (s.prio o) (max ceiling (s.prio t)))) := by
  rw [newPrioForInheritance_eq]
  split_ifs with hlt
  · have hmin : min (s.prio o) (max ceiling (s.prio t)) =
        max ceiling (min (s.prio t) (s.prio o)) := by grind
    rw [adjustOwnerPrio_eq ho, hmin]
  · have hmin : min (s.prio o) (max ceiling (s.prio t)) = s.prio o := by grind
    rw [hmin, State.threadPrioritySet, update_eq_self]

inductive Stepped (ceiling : Int) (s : State T M) : Action T M → State T M → Prop
  | locked (t : T) (m : M) (w : Wait) (h : (s.mutex m).lockCount = 0 ∨ (s.mutex m).owner = some t) :
    Stepped ceiling s (.lock t m w) ((s.setMutex m { s.mutex m with
      ownerOrigPrio := if (s.mutex m).lockCount = 0 then s.prio t else (s.mutex m).ownerOrigPrio
      lockCount := (s.mutex m).lockCount + 1
      owner := some t }).ret t m 0)
  | busy (t : T) (m : M) : Stepped ceiling s (.lock t m .noWait) (s.ret t m (-eBusy))
  | contended (t : T) (m : M) (w : Wait) (o : T) (hc : (s.mutex m).lockCount ≠ 0)
    (ho : (s.mutex m).owner = some o) (hne : o ≠ t) (hw : w ≠ .noWait) :
    Stepped ceiling s (.lock t m w) (pendCurrentThread
      (s.threadPrioritySet o (min (s.prio o) (max ceiling (s.prio t)))) t m w)
  | nested (t : T) (m : M) (h : (s.mutex m).lockCount - 1 ≠ 0) : Stepped ceiling s (.unlock t m)
      (s.setMutex m { s.mutex m with lockCount := (s.mutex m).lockCount - 1 })
  | handedOver (t : T) (m : M) (o n : T) (q : List T) (hc : (s.mutex m).lockCount - 1 = 0)
    (ho : (s.mutex m).owner = some o) (hq : (s.mutex m).waitQ = n :: q) :
    Stepped ceiling s (.unlock t m)
      (((s.threadPrioritySet o (s.mutex m).ownerOrigPrio).setThread n (.returning m 0)).setMutex m
        { waitQ := q, owner := some n, lockCount := 1,
          ownerOrigPrio := (s.threadPrioritySet o (s.mutex m).ownerOrigPrio).prio n })
  | freed (t : T) (m : M) (o : T) (hc : (s.mutex m).lockCount - 1 = 0)
    (ho : (s.mutex m).owner = some o) (hq : (s.mutex m).waitQ = []) :
    Stepped ceiling s (.unlock t m) ((s.threadPrioritySet o (s.mutex m).ownerOrigPrio).setMutex m
        { s.mutex m with lockCount := 0, owner := none })
  | timedOut (t : T) (m : M) (h : s.thread t = .waiting m true) :
    Stepped ceiling s (.timeout t) (handleTimeout s t m)
  | gotMutex (t : T) (m : M) (h : s.thread t = .returning m 0) :
    Stepped ceiling s (.resume t) (s.ret t m 0)
  | gaveUp (t : T) (m : M) (o : T) (g : Int) (h : s.thread t = .returning m g) (hg : g ≠ 0)
    (ho : (s.mutex m).owner = some o) : Stepped ceiling s (.resume t)
      ((s.threadPrioritySet o (timedOutPrio ceiling s m)).ret t m (-eAgain))
  | prioritySet (t : T) (p : Int) : Stepped ceiling s (.prioritySet t p) (s.threadPrioritySet t p)

theorem Stepped.of_lock {w : Wait} (h : kMutexLock ceiling s t m w = some s') :
    Stepped ceiling s (.lock t m w) s' := by
  simp only [kMutexLock] at h
  split at h
  case isTrue hl =>
    cases h
    exact .locked t m w hl
  case isFalse hl =>
    obtain ⟨hc, hne⟩ := not_or.mp hl
    split at h
    case isTrue hw =>
      rw [← some.inj h, hw]
      exact .busy t m
    case isFalse hw =>
      obtain ⟨o, ho, h⟩ := bind_eq_some_iff.mp h
      rw [contended_prio ho] at h
      cases h
      exact .contended t m w o hc ho (fun he => hne (he ▸ ho)) hw

theorem Stepped.of_unlock (h : kMutexUnlock s m = some s') :
    Stepped ceiling s (.unlock t m) s' := by
  simp only [kMutexUnlock] at h
  split at h
  case isTrue hc =>
    cases h
    exact .nested t m hc
  case isFalse hc =>
    obtain ⟨u, hu, h⟩ := bind_eq_some_iff.mp h
    obtain ⟨o, ho, rfl⟩ := adjustOwnerPrio_eq_some hu
    have hc := not_ne_iff.mp hc
    rw [hc] at h
    cases hq : (s.mutex m).waitQ with
    | nil =>
      rw [hq] at h
      rw [← some.inj h, ← hq]
      exact .freed t m o hc ho hq
    | cons n q =>
      rw [hq] at h
      cases h
      exact .handedOver t m o n q hc ho hq

theorem Stepped.of_resume {g : Int} (ht : s.thread t = .returning m g)
    (h : kMutexLockResume ceiling s t m g = some s') : Stepped ceiling s (.resume t) s' := by
  simp only [kMutexLockResume] at h
  split at h
  case isTrue hg =>
    cases h
    exact .gotMutex t m (hg ▸ ht)
  case isFalse hg =>
    obtain ⟨u, hu, h⟩ := bind_eq_some_iff.mp h
    obtain ⟨o, ho, rfl⟩ := adjustOwnerPrio_eq_some hu
    simp only [newPrioForInheritance_eq] at h
    cases h
    exact .gaveUp t m o g ht hg ho

theorem stepped_of_step (h : step ceiling s a = some s') : Stepped ceiling s a s' := by
  cases a with
  | lock t m w => exact .of_lock h
  | unlock t m => exact .of_unlock h
  | timeout t =>
    simp only [step] at h
    split at h
    · cases h
      exact .timedOut t _ ‹_›
    · cases h
  | resume t =>
    simp only [step] at h
    split at h
    · exact .of_resume ‹_› h
    · cases h
  | prioritySet t p =>
    cases h
    exact .prioritySet t p

omit [DecidableEq T] [DecidableEq M] in
theorem Inv.init (prio : T → Int) (orig : M → Int) : Inv (init prio orig) where
  counted _ := by simp [Mutex.init]
  free _ _ := rfl
  nodup _ := List.nodup_nil
  waits _ _ := by simp [Mutex.init]
  apart _ _ h := by simp [Mutex.init] at h

omit [DecidableEq M] in
theorem Inv.threadPrioritySet (hs : Inv s) (t : T) (p : Int) : Inv (s.threadPrioritySet t p) :=
  { hs with }

omit [DecidableEq T] [DecidableEq M] in
theorem Inv.notMem_of_running (hs : Inv s) (ht : s.thread t = .running) (m : M) :
    t ∉ (s.mutex m).waitQ := by
  intro hm
  obtain ⟨_, hw⟩ := (hs.waits m t).mp hm
  simp [ht] at hw

omit [DecidableEq M] in
theorem Inv.ret (hs : Inv s) (ht : ∀ m timed, s.thread t ≠ .waiting m timed) (m : M) (code : Int) :
    Inv (s.ret t m code) := by
  refine { hs with waits := fun m' u => ?_ }
  rw [show (s.ret t m code).mutex = s.mutex from rfl, hs.waits]
  rcases eq_or_ne u t with rfl | hu
  · simp [ht]
  · simp [hu]

theorem Inv.pendCurrentThread (hs : Inv s) (ht : s.thread t = .running)
    (ho : (s.mutex m).owner = some o) (hne : o ≠ t) (w : Wait) :
    Inv (pendCurrentThread s t m w) := by
  have hrun := hs.notMem_of_running ht
  constructor
  case waits =>
    intro m' u
    have hw := hs.waits m' u
    simp only [Mutex.pendCurrentThread, State.setMutex_mutex, State.setMutex_thread,
      State.setThread_mutex, State.setThread_thread, update_apply]
    generalize decide (w ≠ .forever) = timed
    split_ifs with hm hu hu
    · simp [hm, hu, mem_pendThread]
    · grind [mem_pendThread]
    · simp [hu, hrun, Ne.symm hm]
    · exact hw
  all_goals
    intro m'
    rcases eq_or_ne m' m with rfl | hm
    · simp only [Mutex.pendCurrentThread, State.setThread_mutex, State.setMutex_mutex,
        update_self, mem_pendThread]
      grind [nodup_pendThread, hs.apart m', hs.counted m', hs.nodup m']
    · simpa [Mutex.pendCurrentThread, hm] using by first
        | exact hs.counted m' | exact hs.free m' | exact hs.nodup m' | exact hs.apart m'

theorem Inv.leave (hs : Inv s) {timed : Bool} {g : Int}
    (ht : s.thread t = .waiting m timed) (hn : k.waitQ.Nodup)
    (hq : ∀ u, u ∈ k.waitQ ↔ u ∈ (s.mutex m).waitQ ∧ u ≠ t)
    (hc : k.lockCount ≠ 0) (hk : k.owner ≠ none) (ho : ∀ o, k.owner = some o → o ∉ k.waitQ) :
    Inv ((s.setThread t (.returning m g)).setMutex m k) := by
  constructor
  case waits =>
    intro m' u
    have hw := hs.waits m' u
    simp only [State.setMutex_mutex, State.setMutex_thread, State.setThread_mutex,
      State.setThread_thread,
      update_apply]
    split_ifs <;> grind
  all_goals
    intro m'
    rcases eq_or_ne m' m with rfl | hm
    · simp only [State.setMutex_mutex]
      grind
    · simpa [hm] using by first
        | exact hs.counted m' | exact hs.free m' | exact hs.nodup m' | exact hs.apart m'

theorem Inv.step (hs : Inv s) (ha : Allowed s a) (h : step ceiling s a = some s') : Inv s' := by
  cases stepped_of_step h with
  | locked t m w hl =>
    have ht : s.thread t = .running := ha
    refine Inv.ret (hs.setMutex ?_ ?_ ?_ ?_) ?_ m 0
    · rfl
    · simp
    · simp
    · rintro _ ⟨rfl⟩
      exact hs.notMem_of_running ht m
    · simp [ht]
  | busy t m =>
    have ht : s.thread t = .running := ha
    exact hs.ret (by simp [ht]) m _
  | contended t m w o hc ho hne _ => exact (hs.threadPrioritySet o _).pendCurrentThread ha ho hne w
  | nested t m hc =>
    have hm := hs.counted m
    have hpos : (s.mutex m).lockCount ≠ 0 := by omega
    exact hs.setMutex rfl (by simp [hc, ← hm, hpos]) (hs.free m) (hs.apart m)
  | handedOver t m o n q hc ho hq =>
    have hn : n ∉ q ∧ q.Nodup := List.nodup_cons.mp (hq ▸ hs.nodup m)
    obtain ⟨_, hw⟩ := (hs.waits m n).mp (by simp [hq])
    refine (hs.threadPrioritySet o _).leave hw hn.2 ?_ Nat.one_ne_zero (by simp) ?_
    · intro u
      have := hn.1
      simp only [State.threadPrioritySet_mutex, hq, List.mem_cons]
      grind
    · rintro _ ⟨rfl⟩
      exact hn.1
  | freed t m o hc ho hq =>
    exact (hs.threadPrioritySet o _).setMutex rfl (by simp) (fun _ => hq) (by simp)
  | timedOut t m ht =>
    have hq := fun h => (hs.free m h).symm ▸ (hs.waits m t).mpr ⟨true, ht⟩
    have ho : (s.mutex m).owner ≠ none := fun h => by simpa using hq h
    exact hs.leave ht ((hs.nodup m).erase t)
      (fun u => by simp [(hs.nodup m).mem_erase_iff, and_comm])
      (fun h => ho ((hs.counted m).mp h)) ho
      (fun o h hm => hs.apart m o h (List.mem_of_mem_erase hm))
  | gotMutex t m ht => exact hs.ret (by simp [ht]) m 0
  | gaveUp t m o g ht hg ho => exact (hs.threadPrioritySet o _).ret (by simp [ht]) m _
  | prioritySet t p => exact hs.threadPrioritySet t p

def TimedOutFindsOwner (ceiling : Int) (s : State T M) : Prop :=
  ∀ t m, timedOut s m t → ∃ o, (s.mutex m).owner = some o ∧
    ∃ s', step ceiling s (.resume t) = some s' ∧ s'.mutex = s.mutex ∧
      ∀ u, u ≠ o → s'.prio u = s.prio u

def KeepsOwner (s : State T M) : Action T M → Prop
  | .unlock _ m => (s.mutex m).lockCount = 1 → (s.mutex m).waitQ = [] → ∀ t, timedOut s m t = false
  | _ => True

instance [Fintype T] (a : Action T M) : Decidable (KeepsOwner s a) := by
  cases a <;> unfold KeepsOwner <;> infer_instance

theorem timedOutFindsOwner_iff :
    TimedOutFindsOwner ceiling s ↔ ∀ t m, timedOut s m t → (s.mutex m).owner ≠ none := by
  constructor
  · intro h t m ht hn
    obtain ⟨o, ho, -⟩ := h t m ht
    simp [hn] at ho
  · intro h t m ht
    obtain ⟨o, ho⟩ := ne_none_iff_exists'.mp (h t m ht)
    obtain ⟨g, hg, hr⟩ := timedOut_iff.mp ht
    refine ⟨o, ho, ?_⟩
    simp only [step, hr, kMutexLockResume, hg, adjustOwnerPrio_eq ho]
    exact ⟨_, rfl, rfl, fun u hu => update_of_ne hu ..⟩

theorem timedOut_update_iff {c : ThreadState M} {u : T}
    (hc : ∀ m g, c = .returning m g → g = 0) (h : s'.thread = update s.thread t c) :
    timedOut s' m u ↔ u ≠ t ∧ timedOut s m u := by
  simp only [timedOut_iff, h]
  rcases eq_or_ne u t with rfl | hne
  · simp only [update_self, ne_eq, not_true_eq_false, false_and, iff_false]
    rintro ⟨g, hg, hr⟩
    exact hg (hc m g hr)
  · simp [hne]

theorem findsOwner_update {c : ThreadState M}
    (hf : ∀ t m, timedOut s m t → (s.mutex m).owner ≠ none)
    (hc : ∀ m g, c = .returning m g → g = 0) (h : s'.thread = update s.thread t c)
    (ho : ∀ m, (s'.mutex m).owner = none → (s.mutex m).owner = none) :
    ∀ t m, timedOut s' m t → (s'.mutex m).owner ≠ none :=
  fun u m hu hn => hf u m ((timedOut_update_iff hc h).mp hu).2 (ho m hn)

theorem findsOwner_step (hs : Inv s) (hf : ∀ t m, timedOut s m t → (s.mutex m).owner ≠ none)
    (ha : Allowed s a) (h : step ceiling s a = some s') :
    (∀ t m, timedOut s' m t → (s'.mutex m).owner ≠ none) ↔ KeepsOwner s a := by
  cases stepped_of_step h with
  | locked t m w hl =>
    exact iff_of_true (findsOwner_update hf (by simp) rfl (owner_update rfl (by simp))) trivial
  | busy t m => exact iff_of_true (findsOwner_update hf (by simp) rfl fun _ => id) trivial
  | contended t m w o hc ho hne _ =>
    exact iff_of_true (findsOwner_update hf (by simp) rfl (owner_update rfl id)) trivial
  | nested t m hc =>
    refine iff_of_true (fun u m' hu hn => hf u m' hu ?_) (fun h => by simp [h] at hc)
    exact owner_update (s := s) (k := { s.mutex m with lockCount := (s.mutex m).lockCount - 1 })
      rfl id m' hn
  | handedOver t m o n q hc ho hq =>
    exact iff_of_true (findsOwner_update hf (by simp) rfl (owner_update rfl (by simp)))
      (fun _ h => by simp [h] at hq)
  | freed t m o hc ho hq =>
    have hone : (s.mutex m).lockCount = 1 := by
      have := ha.2.1
      omega
    constructor
    · intro hf' _ _ u
      exact Bool.eq_false_iff.mpr fun hu => hf' u m hu (by simp)
    · intro hk u m' hu
      rcases eq_or_ne m' m with rfl | hm
      · exact absurd hu (Bool.eq_false_iff.mp (hk hone hq u))
      · simpa [hm] using hf u m' hu
  | timedOut t m ht =>
    refine iff_of_true (fun u m' hu hn' => ?_) trivial
    have hn : (s.mutex m').owner = none :=
      owner_update (k := { s.mutex m with waitQ := (s.mutex m).waitQ.erase t }) rfl id m' hn'
    obtain ⟨g, hg, hr⟩ := timedOut_iff.mp hu
    rcases eq_or_ne u t with rfl | hne
    · -- its own wait queue is not empty, so the mutex has an owner
      have hm : m = m' := by simp_all [handleTimeout]
      have hq := (hs.waits m u).mpr ⟨true, ht⟩
      simp [hs.free m (hm ▸ hn)] at hq
    · exact hf u m' (timedOut_iff.mpr ⟨g, hg, by simpa [handleTimeout, hne] using hr⟩) hn
  | gotMutex t m ht => exact iff_of_true (findsOwner_update hf (by simp) rfl fun _ => id) trivial
  | gaveUp t m o g ht hg ho => exact iff_of_true (findsOwner_update hf (by simp) rfl fun _ => id) trivial
  | prioritySet t p => exact iff_of_true hf trivial

end Zephyr.Mutex
