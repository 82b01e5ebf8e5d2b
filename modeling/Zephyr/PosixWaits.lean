import Zephyr.Run
import Zephyr.WaitQ

/-! The POSIX mutexes and condition variables of `kernel/posix`, on top of the semaphore's take and
give. A mutex is held by one thread as long as no condition wait releases it while threads wait for
it. A wait that is signalled reports a timeout, since `ready_one_thread` leaves the return value
of `_Swap` alone. -/

namespace Zephyr.Posix

open Function

def kForever : Int := -1
def eAgain : Int := 11
def eBusy : Int := 16
def eTimedOut : Int := 60

structure KSem (T : Type) where
  count : Nat
  limit : Nat
  waitQ : List T

inductive Wake where
  | signalled
  | expired
deriving DecidableEq

/-- The wait of a `cond_wait` that has to lock the mutex again; `ret` is what `_Swap` returned. -/
structure Waited (V : Type) where
  cv : V
  timed : Bool
  wake : Wake
  ret : Int
deriving DecidableEq

def Waited.result {V : Type} (wait : Waited V) : Int :=
  if wait.ret = -eAgain then -eTimedOut else wait.ret

/-- Where a thread is. A lock is a call of its own or the last part of a `cond_wait`. -/
inductive Phase (M V : Type) where
  | idle
  | semPend (m : M) (outer : Option (Waited V))
  | semWoken (m : M) (outer : Option (Waited V)) (ret : Int)
  | condPend (cv : V) (m : M) (timed : Bool)
  | condWoken (m : M) (wait : Waited V)
deriving DecidableEq

/-- What a call has returned; `held` says whether the caller of `pthread_mutex_lock` holds it. -/
inductive Return (T M V : Type) where
  | lock (t : T) (m : M) (code : Int) (held : Bool)
  | trylock (t : T) (m : M) (code : Int)
  | unlock (t : T) (m : M) (code : Int)
  | wait (t : T) (wait : Waited V) (code : Int)
  | signal (t : T) (cv : V) (code : Int)
  | broadcast (t : T) (cv : V) (code : Int)
deriving DecidableEq

/-- `holders` are the threads that may use what the mutex protects: those that were given it, and
those whose `cond_wait` has returned. -/
structure State (T M V : Type) where
  sem : M → KSem T
  cond : V → List T
  phase : T → Phase M V
  holders : M → List T
  returns : List (Return T M V)

inductive Action (T M V : Type) where
  | lock (t : T) (m : M)
  | trylock (t : T) (m : M)
  | unlock (t : T) (m : M)
  | wait (t : T) (cv : V) (m : M)
  | timedwait (t : T) (cv : V) (m : M) (sec nsec : Int)
  | signal (t : T) (cv : V)
  | broadcast (t : T) (cv : V)
  | timeout (t : T)
  | run (t : T)

section

variable {T M V : Type} [DecidableEq T] [DecidableEq M] [DecidableEq V]

def init : State T M V where
  sem _ := ⟨1, 1, []⟩
  cond _ := []
  phase _ := .idle
  holders _ := []
  returns := []

variable (prio : T → Int) (s : State T M V) (t : T) (cv : V) (m : M)

@[simps]
def State.setSem (sem : KSem T) : State T M V :=
  { s with sem := update s.sem m sem }

@[simps]
def State.setCond (waitQ : List T) : State T M V :=
  { s with cond := update s.cond cv waitQ }

@[simps]
def State.setPhase (phase : Phase M V) : State T M V :=
  { s with phase := update s.phase t phase }

@[simps]
def State.setHolders (holders : List T) : State T M V :=
  { s with holders := update s.holders m holders }

@[simps]
def State.ret (r : Return T M V) : State T M V :=
  { s with returns := s.returns ++ [r] }

/-- The end of `cond_wait`, after its `pthread_mutex_lock`, whose result it does not look at. -/
def condWaitEnd (wait : Waited V) : State T M V :=
  (s.setHolders m (if t ∈ s.holders m then s.holders m else s.holders m ++ [t])).ret
    (.wait t wait wait.result)

def lockEnd (outer : Option (Waited V)) (ret : Int) : State T M V :=
  let s := (s.setPhase t .idle).ret (.lock t m ret (t ∈ s.holders m))
  match outer with
  | none => s
  | some wait => condWaitEnd s t m wait

def kSemTake (outer : Option (Waited V)) : State T M V :=
  let sem := s.sem m
  if 0 < sem.count then
    lockEnd ((s.setSem m { sem with count := sem.count - 1 }).setHolders m (s.holders m ++ [t]))
      t m outer 0
  else
    (s.setSem m { sem with waitQ := pendThread prio t sem.waitQ }).setPhase t (.semPend m outer)

def readyLocker (ret : Int) : State T M V :=
  match s.phase t with
  | .semPend m outer => s.setPhase t (.semWoken m outer ret)
  | _ => s

def readyWaiter (wake : Wake) : State T M V :=
  match s.phase t with
  | .condPend cv m timed => s.setPhase t (.condWoken m ⟨cv, timed, wake, -eAgain⟩)
  | _ => s

def kSemGive : State T M V :=
  let sem := s.sem m
  match sem.waitQ with
  | [] =>
    (s.setSem m { sem with count := sem.count + if sem.count ≠ sem.limit then 1 else 0 }).setHolders
      m ((s.holders m).erase t)
  | u :: waitQ =>
    readyLocker ((s.setSem m { sem with waitQ }).setHolders m ((s.holders m).erase t ++ [u])) u 0

/-- `ready_one_thread` on the queue of a semaphore. It sets no return value, so that of `_Swap`
stays at -EAGAIN. -/
def readyOneLocker : State T M V :=
  let sem := s.sem m
  match sem.waitQ with
  | [] => s
  | u :: waitQ => readyLocker (s.setSem m { sem with waitQ }) u (-eAgain)

def readyOneWaiter : State T M V :=
  match s.cond cv with
  | [] => s
  | u :: waitQ => readyWaiter (s.setCond cv waitQ) u .signalled

def condWait (timeout : Int) : State T M V :=
  let s := readyOneLocker (s.setSem m { s.sem m with count := 1 }) m
  ((s.setHolders m ((s.holders m).erase t)).setCond cv (pendThread prio t (s.cond cv))).setPhase t
    (.condPend cv m (timeout ≠ kForever))

def tsToMs (sec nsec : Int) : Int := (sec * 1000 + nsec.tdiv 1000000).bmod (2 ^ 32)

def pthreadMutexLock : State T M V :=
  kSemTake prio s t m none

def pthreadMutexTrylock : State T M V :=
  if (s.sem m).count ≠ 0 then
    ((s.setSem m { s.sem m with count := 0 }).setHolders m (s.holders m ++ [t])).ret (.trylock t m 0)
  else s.ret (.trylock t m (-eBusy))

def pthreadMutexUnlock : State T M V :=
  (kSemGive s t m).ret (.unlock t m 0)

def pthreadCondWait : State T M V :=
  condWait prio s t cv m kForever

def pthreadCondTimedwait (sec nsec : Int) : State T M V :=
  condWait prio s t cv m (tsToMs sec nsec)

def pthreadCondSignal : State T M V :=
  (readyOneWaiter s cv).ret (.signal t cv 0)

def pthreadCondBroadcast : State T M V :=
  ((s.cond cv).foldl (fun s _ => readyOneWaiter s cv) s).ret (.broadcast t cv 0)

def handleTimeout : Option (State T M V) :=
  match s.phase t with
  | .condPend cv _ true => readyWaiter (s.setCond cv ((s.cond cv).erase t)) t .expired
  | _ => none

def resume : Option (State T M V) :=
  match s.phase t with
  | .semWoken m outer ret => lockEnd s t m outer ret
  | .condWoken m wait => kSemTake prio s t m (some wait)
  | _ => none

def step : Action T M V → Option (State T M V)
  | .lock t m => pthreadMutexLock prio s t m
  | .trylock t m => pthreadMutexTrylock s t m
  | .unlock t m => pthreadMutexUnlock s t m
  | .wait t cv m => pthreadCondWait prio s t cv m
  | .timedwait t cv m sec nsec => pthreadCondTimedwait prio s t cv m sec nsec
  | .signal t cv => pthreadCondSignal s t cv
  | .broadcast t cv => pthreadCondBroadcast s t cv
  | .timeout t => handleTimeout s t
  | .run t => resume prio s t

def Allowed : Action T M V → Prop
  | .lock t _ | .trylock t _ | .signal t _ | .broadcast t _ => s.phase t = .idle
  | .unlock t m | .wait t _ m | .timedwait t _ m _ _ => s.phase t = .idle ∧ t ∈ s.holders m
  | .timeout _ | .run _ => True

instance (s : State T M V) (a : Action T M V) : Decidable (Allowed s a) := by
  cases a <;> unfold Allowed <;> infer_instance

end

open Option List

variable {T M V : Type} {prio : T → Int} {s s' : State T M V} {t u : T} {m : M} {cv : V}
  {a : Action T M V} {ph : Phase M V} {outer : Option (Waited V)} {q : List T}

def Phase.semQ : Phase M V → Option M
  | .semPend m _ => some m
  | _ => none

def Phase.condQ : Phase M V → Option V
  | .condPend cv _ _ => some cv
  | _ => none

def Phase.Runs (ph : Phase M V) : Prop := ph.semQ = none ∧ ph.condQ = none

structure Queues (s : State T M V) : Prop where
  sems : Queued (KSem.waitQ ∘ s.sem) (Phase.semQ ∘ s.phase)
  conds : Queued s.cond (Phase.condQ ∘ s.phase)

theorem Queues.of_mem_sem (h : Queues s) (ht : t ∈ (s.sem m).waitQ) :
    ∃ outer, s.phase t = .semPend m outer := by
  have hq := (h.sems.mem m t).mp ht
  cases hp : s.phase t <;> simp_all [Phase.semQ]

theorem Queues.of_mem_cond (h : Queues s) (ht : t ∈ s.cond cv) :
    ∃ m timed, s.phase t = .condPend cv m timed := by
  have hq := (h.conds.mem cv t).mp ht
  cases hp : s.phase t <;> simp_all [Phase.condQ]

theorem queues_init : Queues (init : State T M V) :=
  ⟨⟨fun _ => .nil, by simp [init, Phase.semQ]⟩, ⟨fun _ => .nil, by simp [init, Phase.condQ]⟩⟩

theorem Queues.ret (h : Queues s) (r : Return T M V) : Queues (s.ret r) := ⟨h.sems, h.conds⟩

theorem Queues.setPhase [DecidableEq T] (h : Queues s) (ht : (s.phase t).Runs) (hph : ph.Runs) :
    Queues (s.setPhase t ph) := by
  constructor
  · rw [State.setPhase, comp_update, hph.1]
    exact h.sems.stay ht.1
  · rw [State.setPhase, comp_update, hph.2]
    exact h.conds.stay ht.2

theorem Queues.setHolders [DecidableEq M] (h : Queues s) (l : List T) : Queues (s.setHolders m l) :=
  ⟨h.sems, h.conds⟩

theorem Queues.setCount [DecidableEq M] (h : Queues s) (count : Nat) :
    Queues (s.setSem m { s.sem m with count }) := by
  refine ⟨?_, h.conds⟩
  rw [State.setSem, comp_update]
  convert h.sems
  exact update_eq_self m (KSem.waitQ ∘ s.sem)

section Sem

variable [DecidableEq T] [DecidableEq M]

theorem Queues.pendSem (h : Queues s) (ht : (s.phase t).Runs) :
    Queues ((s.setSem m { s.sem m with waitQ := pendThread prio t (s.sem m).waitQ }).setPhase t
      (.semPend m outer)) := by
  constructor <;> simp only [State.setPhase, State.setSem, comp_update]
  · exact h.sems.pend ht.1 m
  · exact h.conds.stay ht.2

theorem Queues.popSem (h : Queues s) (hq : (s.sem m).waitQ = u :: q)
    (hu : s.phase u = .semPend m outer) (code : Int) :
    Queues ((s.setSem m { s.sem m with waitQ := q }).setPhase u (.semWoken m outer code)) := by
  constructor <;> simp only [State.setPhase, State.setSem, comp_update]
  · have hleave := h.sems.leave (w := u) (k := m) (by simp [hu, Phase.semQ])
    rwa [comp_apply, hq, erase_cons_head] at hleave
  · exact h.conds.stay (by simp [hu, Phase.condQ])

theorem readyOneLocker_cons (h : Queues s) (hq : (s.sem m).waitQ = u :: q) :
    ∃ outer, s.phase u = .semPend m outer ∧ readyOneLocker s m =
      (s.setSem m { s.sem m with waitQ := q }).setPhase u (.semWoken m outer (-eAgain)) := by
  have hmem : u ∈ (s.sem m).waitQ := by simp [hq]
  obtain ⟨outer, hu⟩ := h.of_mem_sem hmem
  exact ⟨outer, hu, by simp [readyOneLocker, hq, readyLocker, hu]⟩

theorem kSemGive_nil (hq : (s.sem m).waitQ = []) : kSemGive s t m = (s.setSem m { s.sem m with
      count := (s.sem m).count + if (s.sem m).count ≠ (s.sem m).limit then 1 else 0 }).setHolders m
        ((s.holders m).erase t) := by
  simp [kSemGive, hq]

theorem kSemGive_cons (h : Queues s) (hq : (s.sem m).waitQ = u :: q) :
    ∃ outer, s.phase u = .semPend m outer ∧ kSemGive s t m =
      ((s.setSem m { s.sem m with waitQ := q }).setPhase u (.semWoken m outer 0)).setHolders m
        ((s.holders m).erase t ++ [u]) := by
  have hmem : u ∈ (s.sem m).waitQ := by simp [hq]
  obtain ⟨outer, hu⟩ := h.of_mem_sem hmem
  exact ⟨outer, hu, by simp [kSemGive, hq, readyLocker, State.setHolders, State.setPhase, hu]⟩

theorem Queues.readyOneLocker (h : Queues s) : Queues (readyOneLocker s m) := by
  cases hq : (s.sem m).waitQ with
  | nil => simpa [Posix.readyOneLocker, hq] using h
  | cons u q =>
    obtain ⟨_, hu, he⟩ := readyOneLocker_cons h hq
    rw [he]
    exact h.popSem hq hu _

theorem Queues.kSemGive (h : Queues s) : Queues (kSemGive s t m) := by
  cases hq : (s.sem m).waitQ with
  | nil =>
    rw [kSemGive_nil hq]
    exact (h.setCount _).setHolders _
  | cons u q =>
    obtain ⟨_, hu, he⟩ := kSemGive_cons h hq
    rw [he]
    exact (h.popSem hq hu _).setHolders _

theorem readyOneLocker_phase (ht : (s.phase t).semQ = none) :
    (readyOneLocker s m).phase t = s.phase t := by
  unfold readyOneLocker readyLocker
  dsimp only
  split
  · rfl
  · split
    next u q hq _ m' outer hu =>
      have hne : t ≠ u := by
        rintro rfl
        rw [show s.phase t = _ from hu] at ht
        simp [Phase.semQ] at ht
      exact update_of_ne hne _ _
    next => rfl

theorem Queues.lockEnd (h : Queues s) (ht : (s.phase t).Runs) (code : Int) :
    Queues (lockEnd s t m outer code) := by
  have hidle : Queues ((s.setPhase t .idle).ret (.lock t m code (t ∈ s.holders m))) :=
    (h.setPhase ht ⟨rfl, rfl⟩).ret _
  cases outer with
  | none => exact hidle
  | some wait => exact (hidle.setHolders _).ret _

theorem Queues.kSemTake (h : Queues s) (ht : (s.phase t).Runs) :
    Queues (kSemTake prio s t m outer) := by
  unfold Posix.kSemTake
  dsimp only
  split
  · exact ((h.setCount _).setHolders _).lockEnd ht 0
  · exact h.pendSem ht

theorem resume_some (h : resume prio s t = some s') :
    (∃ m outer code, s.phase t = .semWoken m outer code ∧ s' = lockEnd s t m outer code) ∨
      ∃ m wait, s.phase t = .condWoken m wait ∧ s' = kSemTake prio s t m (some wait) := by
  unfold resume at h
  split at h
  next m outer code ht => exact .inl ⟨m, outer, code, ht, (some.inj h).symm⟩
  next m wait ht => exact .inr ⟨m, wait, ht, (some.inj h).symm⟩
  next => simp at h

end Sem

section Cond

variable [DecidableEq T] [DecidableEq V]

theorem Queues.pendCond (h : Queues s) (ht : (s.phase t).Runs) {timed : Bool} :
    Queues ((s.setCond cv (pendThread prio t (s.cond cv))).setPhase t (.condPend cv m timed)) := by
  constructor <;> simp only [State.setPhase, comp_update]
  · exact h.sems.stay ht.1
  · exact h.conds.pend ht.2 cv

theorem Queues.leaveCond (h : Queues s) {timed : Bool} (hu : s.phase u = .condPend cv m timed)
    (wait : Waited V) :
    Queues ((s.setCond cv ((s.cond cv).erase u)).setPhase u (.condWoken m wait)) := by
  constructor <;> simp only [State.setPhase, comp_update]
  · exact h.sems.stay (by simp [hu, Phase.semQ])
  · exact h.conds.leave (by simp [hu, Phase.condQ])

theorem readyOneWaiter_cons (h : Queues s) (hq : s.cond cv = u :: q) :
    ∃ m timed, s.phase u = .condPend cv m timed ∧ readyOneWaiter s cv =
      (s.setCond cv ((s.cond cv).erase u)).setPhase u
        (.condWoken m ⟨cv, timed, .signalled, -eAgain⟩) := by
  have hmem : u ∈ s.cond cv := by simp [hq]
  obtain ⟨m, timed, hu⟩ := h.of_mem_cond hmem
  exact ⟨m, timed, hu, by simp [readyOneWaiter, hq, readyWaiter, hu]⟩

theorem Queues.readyOneWaiter (h : Queues s) : Queues (readyOneWaiter s cv) := by
  cases hq : s.cond cv with
  | nil => simpa [Posix.readyOneWaiter, hq] using h
  | cons u q =>
    obtain ⟨m, _, hu, he⟩ := readyOneWaiter_cons h hq
    rw [he]
    exact h.leaveCond hu _

theorem handleTimeout_some (h : handleTimeout s t = some s') :
    ∃ cv m, s.phase t = .condPend cv m true ∧ s' = (s.setCond cv ((s.cond cv).erase t)).setPhase t
        (.condWoken m ⟨cv, true, .expired, -eAgain⟩) := by
  unfold handleTimeout at h
  split at h
  next cv m hp =>
    refine ⟨cv, m, hp, (some.inj h).symm.trans ?_⟩
    simp [readyWaiter, hp]
  next => simp at h

end Cond

section

variable [DecidableEq T] [DecidableEq M] [DecidableEq V]

theorem Queues.condWait (h : Queues s) (ht : (s.phase t).Runs) {timeout : Int} :
    Queues (condWait prio s t cv m timeout) := by
  have hready := (h.setCount (m := m) 1).readyOneLocker (m := m)
  refine Queues.pendCond (hready.setHolders _) ?_
  rwa [State.setHolders, readyOneLocker_phase (by exact ht.1)]

theorem queues_step (h : Queues s) (ha : Allowed s a) (hs : step prio s a = some s') :
    Queues s' := by
  have hidle : ∀ {t}, s.phase t = .idle → (s.phase t).Runs := fun ht => ht ▸ ⟨rfl, rfl⟩
  cases a with
  | lock t m =>
    cases hs
    exact h.kSemTake (hidle ha)
  | trylock t m =>
    cases hs
    unfold pthreadMutexTrylock
    split
    · exact ((h.setCount 0).setHolders _).ret _
    · exact h.ret _
  | unlock t m =>
    cases hs
    exact h.kSemGive.ret _
  | wait t cv m =>
    cases hs
    exact h.condWait (hidle ha.1)
  | timedwait t cv m sec nsec =>
    cases hs
    exact h.condWait (hidle ha.1)
  | signal t cv =>
    cases hs
    exact h.readyOneWaiter.ret _
  | broadcast t cv =>
    cases hs
    exact Queues.ret (foldlRecOn _ _ h fun _ h _ _ => h.readyOneWaiter) _
  | timeout t =>
    obtain ⟨cv, m, ht, rfl⟩ := handleTimeout_some hs
    exact h.leaveCond ht _
  | run t =>
    rcases resume_some hs with ⟨m, _, code, ht, rfl⟩ | ⟨m, wait, ht, rfl⟩
    · exact h.lockEnd (ht ▸ ⟨rfl, rfl⟩) code
    · exact h.kSemTake (ht ▸ ⟨rfl, rfl⟩)

end

structure Balanced (sem : KSem T) (holders : List T) : Prop where
  limit : sem.limit = 1
  one : sem.count + holders.length = 1
  busy : sem.waitQ ≠ [] → sem.count = 0

/-- Every `pthread_mutex_lock` that has returned, or is about to, returns 0 with the mutex held, and
no mutex is held by two threads. -/
structure LocksOk (s : State T M V) : Prop where
  returned : ∀ t m code held, .lock t m code held ∈ s.returns → code = 0 ∧ held = true
  woken : ∀ t m outer code, s.phase t = .semWoken m outer code → code = 0 ∧ t ∈ s.holders m
  exclusive : ∀ m, (s.holders m).length ≤ 1

def LeavesNoWaiter (s : State T M V) : Action T M V → Prop
  | .wait _ _ m | .timedwait _ _ m _ _ => (s.sem m).waitQ = []
  | _ => True

instance [DecidableEq T] (s : State T M V) (a : Action T M V) : Decidable (LeavesNoWaiter s a) := by
  cases a <;> unfold LeavesNoWaiter <;> infer_instance

structure Locking (s : State T M V) : Prop where
  queues : Queues s
  balanced : ∀ m, Balanced (s.sem m) (s.holders m)
  ok : LocksOk s

theorem locking_init : Locking (init : State T M V) :=
  ⟨queues_init, fun _ => ⟨rfl, rfl, by simp [init]⟩, by simp [init], by simp [init], by simp [init]⟩

variable {l : List T}

theorem Balanced.exclusive {sem : KSem T} (h : Balanced sem l) : l.length ≤ 1 := by
  have := h.one
  omega

theorem balanced_update [DecidableEq M] {sem : M → KSem T} {holders : M → List T} {sem' : KSem T}
    (h : ∀ m, Balanced (sem m) (holders m)) (hm : Balanced sem' l) :
    ∀ m', Balanced (update sem m sem' m') (update holders m l m') := by
  intro m'
  rcases eq_or_ne m' m with rfl | hne
  · simpa only [update_self] using hm
  · simpa only [update_of_ne hne] using h m'

theorem LocksOk.ret (h : LocksOk s) {r : Return T M V}
    (hr : ∀ t m code held, r ≠ .lock t m code held) : LocksOk (s.ret r) := by
  refine { h with returned := fun t m code held hmem => ?_ }
  rcases mem_append.mp hmem with hmem | hmem
  · exact h.returned t m code held hmem
  · exact absurd (mem_singleton.mp hmem).symm (hr t m code held)

theorem LocksOk.setPhase [DecidableEq T] (h : LocksOk s)
    (hph : ∀ m outer code, ph = .semWoken m outer code → code = 0 ∧ t ∈ s.holders m) :
    LocksOk (s.setPhase t ph) := by
  refine { h with woken := fun t' m outer code hp => ?_ }
  rw [State.setPhase_phase, update_apply] at hp
  split at hp
  next heq => exact heq ▸ hph m outer code hp
  next => exact h.woken t' m outer code hp

theorem LocksOk.setSem [DecidableEq M] (h : LocksOk s) (sem : KSem T) : LocksOk (s.setSem m sem) :=
  { h with }

theorem LocksOk.setHolders [DecidableEq M] (h : LocksOk s) (hl : l.length ≤ 1)
    (hw : ∀ t outer code, s.phase t = .semWoken m outer code → t ∈ l) :
    LocksOk (s.setHolders m l) := by
  refine { h with woken := fun t m' outer code hp => ?_, exclusive := fun m' => ?_ }
  · refine ⟨(h.woken t m' outer code hp).1, ?_⟩
    rcases eq_or_ne m' m with rfl | hne
    · simpa using hw t outer code hp
    · simpa [hne] using (h.woken t m' outer code hp).2
  · rcases eq_or_ne m' m with rfl | hne
    · simpa using hl
    · simpa [hne] using h.exclusive m'

theorem LocksOk.not_woken (h : LocksOk s) (ht : s.phase t = .idle) (hm : t ∈ s.holders m)
    {code : Int} : s.phase u ≠ .semWoken m outer code := by
  intro hu
  have hmem := (h.woken u m outer code hu).2
  obtain ⟨v, hv⟩ : ∃ v, s.holders m = [v] := by
    have hlen := length_pos_of_mem hm
    exact length_eq_one_iff.mp (by have := h.exclusive m; omega)
  rw [hv, mem_singleton] at hm hmem
  simp [hmem, ← hm, ht] at hu

theorem Locking.setCount [DecidableEq M] (h : Locking s) {count : Nat}
    (hb : Balanced { s.sem m with count } l)
    (hw : ∀ u outer code, s.phase u = .semWoken m outer code → u ∈ l) :
    Locking ((s.setSem m { s.sem m with count }).setHolders m l) :=
  ⟨(h.queues.setCount _).setHolders _, balanced_update h.balanced hb,
    (h.ok.setSem _).setHolders hb.exclusive hw⟩

theorem Locking.take [DecidableEq M] (h : Locking s) (hpos : 0 < (s.sem m).count) (t : T) :
    Locking ((s.setSem m { s.sem m with count := 0 }).setHolders m (s.holders m ++ [t])) := by
  obtain ⟨hlimit, hone, -⟩ := h.balanced m
  have hnone : s.holders m = [] := length_eq_zero_iff.mp (by omega)
  refine h.setCount ⟨hlimit, by simp [hnone], fun _ => rfl⟩ fun u outer code hu => ?_
  exact mem_append_left _ (h.ok.woken u m outer code hu).2

section

variable [DecidableEq T] [DecidableEq M]

theorem lockEnd_of_holds (ht : t ∈ s.holders m) (code : Int) : lockEnd s t m outer code =
    { s.setPhase t .idle with
      returns := s.returns ++
        .lock t m code true :: (outer.map fun w => .wait t w w.result).toList } := by
  cases outer with
  | none => simp [lockEnd, State.ret, ht]
  | some wait => simp [lockEnd, condWaitEnd, State.ret, State.setHolders, ht]

theorem Locking.lockEnd (h : Locking s) (ht : (s.phase t).Runs) (hm : t ∈ s.holders m) :
    Locking (lockEnd s t m outer 0) := by
  have hidle : LocksOk (s.setPhase t .idle) := h.ok.setPhase (by simp)
  refine ⟨h.queues.lockEnd ht 0, ?_, ?_⟩ <;> rw [lockEnd_of_holds hm]
  · exact h.balanced
  · refine { hidle with returned := fun t' m' code held hr => ?_ }
    rcases mem_append.mp hr with hr | hr
    · exact h.ok.returned t' m' code held hr
    · cases outer <;> simp_all

theorem Locking.release (h : Locking s) (ht : s.phase t = .idle) (hm : t ∈ s.holders m)
    (hq : (s.sem m).waitQ = []) :
    Locking ((s.setSem m { s.sem m with count := 1 }).setHolders m ((s.holders m).erase t)) := by
  obtain ⟨hlimit, hone, -⟩ := h.balanced m
  have hb : Balanced { s.sem m with count := 1 } ((s.holders m).erase t) :=
    ⟨hlimit, by rw [length_erase_of_mem hm]; dsimp only; omega, absurd hq⟩
  exact h.setCount hb fun u outer code hu => absurd hu (h.ok.not_woken ht hm)

theorem Locking.handOver (h : Locking s) (ht : s.phase t = .idle) (hm : t ∈ s.holders m)
    {q : List T} (hq : (s.sem m).waitQ = u :: q) (hu : s.phase u = .semPend m outer) :
    Locking (((s.setSem m { s.sem m with waitQ := q }).setHolders m
      ((s.holders m).erase t ++ [u])).setPhase u (.semWoken m outer 0)) := by
  obtain ⟨hlimit, hone, hbusy⟩ := h.balanced m
  have hb : Balanced { s.sem m with waitQ := q } ((s.holders m).erase t ++ [u]) := by
    have hlen := length_pos_of_mem hm
    refine ⟨hlimit, ?_, fun _ => hbusy (by simp [hq])⟩
    rw [length_append, length_erase_of_mem hm, length_singleton]
    dsimp only
    omega
  refine ⟨(h.queues.popSem hq hu 0).setHolders _, balanced_update h.balanced hb, ?_⟩
  refine ((h.ok.setSem _).setHolders hb.exclusive fun v outer code hv => ?_).setPhase ?_
  · exact absurd hv (h.ok.not_woken ht hm)
  · intro m' outer' code hp
    cases hp
    simp

theorem Locking.kSemTake (h : Locking s) (ht : (s.phase t).Runs) :
    Locking (kSemTake prio s t m outer) := by
  unfold Posix.kSemTake
  dsimp only
  have hone := (h.balanced m).one
  split
  next hpos =>
    rw [show (s.sem m).count - 1 = 0 by omega]
    exact (h.take hpos t).lockEnd ht (by simp)
  next hzero =>
    refine ⟨h.queues.pendSem ht, ?_, (h.ok.setSem _).setPhase (by simp)⟩
    have hb : Balanced { s.sem m with waitQ := pendThread prio t (s.sem m).waitQ } (s.holders m) :=
      ⟨(h.balanced m).limit, hone, fun _ => Nat.eq_zero_of_not_pos hzero⟩
    simpa using balanced_update (m := m) h.balanced hb

theorem Locking.kSemGive (h : Locking s) (ht : s.phase t = .idle) (hm : t ∈ s.holders m) :
    Locking (kSemGive s t m) := by
  cases hq : (s.sem m).waitQ with
  | nil =>
    obtain ⟨hlimit, hone, -⟩ := h.balanced m
    have hlen := length_pos_of_mem hm
    have hzero : (s.sem m).count = 0 := by omega
    rw [kSemGive_nil hq, hlimit, hzero]
    exact h.release ht hm hq
  | cons u q =>
    obtain ⟨_, hu, he⟩ := kSemGive_cons h.queues hq
    rw [he]
    exact h.handOver ht hm hq hu

variable [DecidableEq V]

theorem condWait_nil (hq : (s.sem m).waitQ = []) (timeout : Int) : condWait prio s t cv m timeout =
      (((s.setSem m { s.sem m with count := 1 }).setHolders m ((s.holders m).erase t)).setCond cv
        (pendThread prio t (s.cond cv))).setPhase t (.condPend cv m (timeout ≠ kForever)) := by
  simp [condWait, readyOneLocker, hq]

omit [DecidableEq M] in
theorem Locking.setCond (h : Locking s) (hq : Queues ((s.setCond cv l).setPhase t ph))
    (hph : ∀ m outer code, ph ≠ .semWoken m outer code) :
    Locking ((s.setCond cv l).setPhase t ph) := by
  have hcond : LocksOk (s.setCond cv l) := { h.ok with }
  exact ⟨hq, h.balanced, hcond.setPhase fun m outer code he => absurd he (hph m outer code)⟩

theorem Locking.condWait (h : Locking s) (ht : s.phase t = .idle) (hm : t ∈ s.holders m)
    (hq : (s.sem m).waitQ = []) {timeout : Int} : Locking (condWait prio s t cv m timeout) := by
  have hrel := h.release ht hm hq
  rw [condWait_nil hq]
  refine hrel.setCond (hrel.queues.pendCond ?_) (by simp)
  rw [State.setHolders_phase, State.setSem_phase, ht]
  exact ⟨rfl, rfl⟩

omit [DecidableEq M] in
theorem Locking.readyOneWaiter (h : Locking s) : Locking (readyOneWaiter s cv) := by
  cases hq : s.cond cv with
  | nil => simpa [Posix.readyOneWaiter, hq] using h
  | cons u q =>
    obtain ⟨m, _, hu, he⟩ := readyOneWaiter_cons h.queues hq
    rw [he]
    exact h.setCond (h.queues.leaveCond hu _) (by simp)

theorem locking_step (h : Locking s) (ha : Allowed s a) (hl : LeavesNoWaiter s a)
    (hs : step prio s a = some s') : Locking s' := by
  have hret : ∀ {s : State T M V} {r : Return T M V}, Locking s →
      (∀ t m code held, r ≠ .lock t m code held) → Locking (s.ret r) :=
    fun h hr => ⟨h.queues.ret _, h.balanced, h.ok.ret hr⟩
  cases a with
  | lock t m =>
    cases hs
    exact h.kSemTake (ha ▸ ⟨rfl, rfl⟩)
  | trylock t m =>
    cases hs
    unfold pthreadMutexTrylock
    split
    next hne => exact hret (h.take (Nat.pos_of_ne_zero hne) t) (by simp)
    next => exact hret h (by simp)
  | unlock t m =>
    cases hs
    exact hret (h.kSemGive ha.1 ha.2) (by simp)
  | wait t cv m =>
    cases hs
    exact h.condWait ha.1 ha.2 hl
  | timedwait t cv m sec nsec =>
    cases hs
    exact h.condWait ha.1 ha.2 hl
  | signal t cv =>
    cases hs
    exact hret h.readyOneWaiter (by simp)
  | broadcast t cv =>
    cases hs
    exact hret (foldlRecOn _ _ h fun _ h _ _ => h.readyOneWaiter) (by simp)
  | timeout t =>
    obtain ⟨cv, m, ht, rfl⟩ := handleTimeout_some hs
    exact h.setCond (h.queues.leaveCond ht _) (by simp)
  | run t =>
    rcases resume_some hs with ⟨m, outer, code, ht, rfl⟩ | ⟨m, wait, ht, rfl⟩
    · obtain ⟨rfl, hm⟩ := h.ok.woken t m outer code ht
      exact h.lockEnd (ht ▸ ⟨rfl, rfl⟩) hm
    · exact h.kSemTake (ht ▸ ⟨rfl, rfl⟩)

theorem not_locksOk_condWait (h : Queues s) (ht : s.phase t = .idle) (hq : (s.sem m).waitQ ≠ [])
    (timeout : Int) : ¬ LocksOk (condWait prio s t cv m timeout) := by
  intro hok
  obtain ⟨u, q, hq⟩ := exists_cons_of_ne_nil hq
  obtain ⟨outer, hu, he⟩ := readyOneLocker_cons (h.setCount (m := m) 1) (m := m) (u := u) (q := q)
    (by simpa using hq)
  have hne : u ≠ t := by
    rintro rfl
    simp [ht] at hu
  have hcode := (hok.woken u m outer (-eAgain) (by simp [condWait, he, hne])).1
  simp [eAgain] at hcode

end

variable {wait : Waited V} {code : Int}

def Phase.wait? : Phase M V → Option (Waited V)
  | .semPend _ outer | .semWoken _ outer _ => outer
  | .condWoken _ wait => some wait
  | _ => none

def WaitRight (wait : Waited V) (code : Int) : Prop :=
  (wait.wake = .signalled → code = 0) ∧
    (code = -eTimedOut → wait.timed = true ∧ wait.wake = .expired)

/-- Every condition wait that has returned, or whose wait is over, returns 0 if it was signalled and
-ETIMEDOUT only if it was timed and expired. -/
structure WaitsOk (s : State T M V) : Prop where
  returned : ∀ t wait code, .wait t wait code ∈ s.returns → WaitRight wait code
  woken : ∀ t wait, (s.phase t).wait? = some wait → WaitRight wait wait.result

def WakesNobody (s : State T M V) : Action T M V → Prop
  | .signal _ cv | .broadcast _ cv => s.cond cv = []
  | _ => True

instance [DecidableEq V] [DecidableEq T] (s : State T M V) (a : Action T M V) :
    Decidable (WakesNobody s a) := by
  cases a <;> unfold WakesNobody <;> infer_instance

theorem waitsOk_init : WaitsOk (init : State T M V) := ⟨by simp [init], by simp [init, Phase.wait?]⟩

theorem WaitsOk.ret (h : WaitsOk s) {r : Return T M V}
    (hr : ∀ t wait code, r = .wait t wait code → WaitRight wait code) : WaitsOk (s.ret r) := by
  refine { h with returned := fun t wait code hmem => ?_ }
  rcases List.mem_append.mp hmem with hmem | hmem
  · exact h.returned t wait code hmem
  · exact hr t wait code (List.mem_singleton.mp hmem).symm

theorem not_waitsOk_of_signalled {timed : Bool}
    (hu : s.phase u = .condWoken m ⟨cv, timed, .signalled, -eAgain⟩) : ¬ WaitsOk s := by
  intro h
  have hcode := (h.woken u _ (by rw [hu]; rfl)).1 rfl
  simp [Waited.result, eTimedOut] at hcode

variable [DecidableEq T]

theorem WaitsOk.setPhase (h : WaitsOk s)
    (hph : ∀ wait, ph.wait? = some wait → WaitRight wait wait.result) :
    WaitsOk (s.setPhase t ph) := by
  refine { h with woken := fun t' wait hw => ?_ }
  rw [State.setPhase_phase, update_apply] at hw
  split at hw
  · exact hph wait hw
  · exact h.woken t' wait hw

theorem WaitsOk.readyLocker (h : WaitsOk s) : WaitsOk (readyLocker s u code) := by
  unfold Posix.readyLocker
  split
  next m outer hu => exact h.setPhase fun wait hw => h.woken u wait (by rwa [hu])
  next => exact h

variable [DecidableEq M]

theorem WaitsOk.condWaitEnd (h : WaitsOk s) (hw : WaitRight wait wait.result) :
    WaitsOk (condWaitEnd s t m wait) := by
  have hholders : WaitsOk (s.setHolders m
      (if t ∈ s.holders m then s.holders m else s.holders m ++ [t])) := { h with }
  refine hholders.ret fun t' wait' code' hr => ?_
  cases hr
  exact hw

theorem WaitsOk.lockEnd (h : WaitsOk s)
    (hw : ∀ wait, outer = some wait → WaitRight wait wait.result) :
    WaitsOk (lockEnd s t m outer code) := by
  have hidle : WaitsOk ((s.setPhase t .idle).ret (.lock t m code (t ∈ s.holders m))) :=
    (h.setPhase (by simp [Phase.wait?])).ret (by simp)
  cases outer with
  | none => exact hidle
  | some wait => exact hidle.condWaitEnd (hw wait rfl)

theorem WaitsOk.kSemTake (h : WaitsOk s)
    (hw : ∀ wait, outer = some wait → WaitRight wait wait.result) :
    WaitsOk (kSemTake prio s t m outer) := by
  unfold Posix.kSemTake
  dsimp only
  split
  · exact WaitsOk.lockEnd { h with } hw
  · exact WaitsOk.setPhase { h with } hw

theorem WaitsOk.kSemGive (h : WaitsOk s) : WaitsOk (kSemGive s t m) := by
  unfold Posix.kSemGive
  dsimp only
  split
  · exact { h with }
  · exact WaitsOk.readyLocker { h with }

theorem WaitsOk.readyOneLocker (h : WaitsOk s) : WaitsOk (readyOneLocker s m) := by
  unfold Posix.readyOneLocker
  dsimp only
  split
  · exact h
  · exact WaitsOk.readyLocker { h with }

variable [DecidableEq V]

theorem WaitsOk.condWait (h : WaitsOk s) {timeout : Int} :
    WaitsOk (condWait prio s t cv m timeout) := by
  have hready : WaitsOk (Posix.readyOneLocker (s.setSem m { s.sem m with count := 1 }) m) :=
    WaitsOk.readyOneLocker { h with }
  exact WaitsOk.setPhase { hready with } (by simp [Phase.wait?])

theorem waitsOk_step (h : WaitsOk s) (hw : WakesNobody s a) (hs : step prio s a = some s') :
    WaitsOk s' := by
  cases a with
  | lock t m =>
    cases hs
    exact h.kSemTake (by simp)
  | trylock t m =>
    cases hs
    unfold pthreadMutexTrylock
    split
    · refine WaitsOk.ret ?_ (by simp)
      exact { h with }
    · exact h.ret (by simp)
  | unlock t m =>
    cases hs
    exact h.kSemGive.ret (by simp)
  | wait t cv m =>
    cases hs
    exact h.condWait
  | timedwait t cv m sec nsec =>
    cases hs
    exact h.condWait
  | signal t cv =>
    cases hs
    replace hw : s.cond cv = [] := hw
    simpa [pthreadCondSignal, readyOneWaiter, hw] using h.ret (by simp)
  | broadcast t cv =>
    cases hs
    replace hw : s.cond cv = [] := hw
    simpa [pthreadCondBroadcast, hw] using h.ret (by simp)
  | timeout t =>
    obtain ⟨cv, m, ht, rfl⟩ := handleTimeout_some hs
    refine WaitsOk.setPhase { h with } fun wait hwait => ?_
    cases hwait
    exact ⟨by simp, fun _ => ⟨rfl, rfl⟩⟩
  | run t =>
    rcases resume_some hs with ⟨m, _, _, ht, rfl⟩ | ⟨m, wait, ht, rfl⟩
    · exact h.lockEnd fun wait hwait => h.woken t wait (by rwa [ht])
    · exact h.kSemTake fun wait' hwait => h.woken t wait' (by rw [ht]; exact hwait)

omit [DecidableEq M] in
theorem readyOneWaiter_phase (hu : s.phase u = .condWoken m wait) :
    (readyOneWaiter s cv).phase u = .condWoken m wait := by
  unfold readyOneWaiter readyWaiter
  split
  · exact hu
  · split
    next v q hq _ cv' m' timed hv =>
      have hne : u ≠ v := by
        rintro rfl
        simp [hu] at hv
      simpa [hne] using hu
    next => exact hu

theorem not_waitsOk_step (h : Queues s) (hw : ¬ WakesNobody s a) (hs : step prio s a = some s') :
    ¬ WaitsOk s' := by
  have hwoken : ∀ {cv u q}, s.cond cv = u :: q →
      ∃ m timed, (readyOneWaiter s cv).phase u = .condWoken m ⟨cv, timed, .signalled, -eAgain⟩ := by
    intro cv u q hq
    obtain ⟨m, timed, -, he⟩ := readyOneWaiter_cons h hq
    exact ⟨m, timed, by simp [he]⟩
  cases a with
  | signal t cv =>
    cases hs
    obtain ⟨u, q, hq⟩ := exists_cons_of_ne_nil hw
    obtain ⟨m, timed, hu⟩ := hwoken hq
    exact not_waitsOk_of_signalled hu
  | broadcast t cv =>
    cases hs
    obtain ⟨u, q, hq⟩ := exists_cons_of_ne_nil hw
    obtain ⟨m, timed, hu⟩ := hwoken hq
    have hall : (pthreadCondBroadcast s t cv).phase u =
        .condWoken m ⟨cv, timed, .signalled, -eAgain⟩ := by
      simp only [pthreadCondBroadcast, hq, foldl_cons]
      exact foldlRecOn (motive := (State.phase · u = _)) q _ hu fun _ hu _ _ =>
        readyOneWaiter_phase hu
    exact not_waitsOk_of_signalled hall
  | _ => exact absurd trivial hw

theorem not_locksOk_step (h : Queues s) (ha : Allowed s a) (hl : ¬ LeavesNoWaiter s a)
    (hs : step prio s a = some s') : ¬ LocksOk s' := by
  cases a with
  | wait t cv m =>
    cases hs
    exact not_locksOk_condWait h ha.1 hl _
  | timedwait t cv m sec nsec =>
    cases hs
    exact not_locksOk_condWait h ha.1 hl _
  | _ => exact absurd trivial hl

/-- A lock returns 0 with the mutex held, and one thread at most holds it, exactly as long as every
condition wait finds no thread waiting for the mutex. A condition wait returns what it should exactly
as long as no signal or broadcast finds a thread. -/
theorem mutex_cond_ok_iff (prio : T → Int) (s : State T M V) :
    (GuardedRun (step prio) (fun s a => Allowed s a ∧ LeavesNoWaiter s a) init s →
      LocksOk s ∧ ∀ a s', Allowed s a → step prio s a = some s' →
        (LocksOk s' ↔ LeavesNoWaiter s a)) ∧
    (GuardedRun (step prio) (fun s a => Allowed s a ∧ WakesNobody s a) init s →
      WaitsOk s ∧ ∀ a s', Allowed s a → step prio s a = some s' →
        (WaitsOk s' ↔ WakesNobody s a)) := by
  constructor
  · intro hrun
    have h : Locking s := hrun.invariant (P := Locking)
      (fun _ _ _ h ha hs => locking_step h ha.1 ha.2 hs) locking_init
    refine ⟨h.ok, fun a s' ha hs => ⟨fun hok => ?_, fun hl => (locking_step h ha hl hs).ok⟩⟩
    by_contra hl
    exact not_locksOk_step h.queues ha hl hs hok
  · intro hrun
    have h : Queues s ∧ WaitsOk s := hrun.invariant (P := fun s => Queues s ∧ WaitsOk s)
      (fun _ _ _ h ha hs => ⟨queues_step h.1 ha.1 hs, waitsOk_step h.2 ha.2 hs⟩)
      ⟨queues_init, waitsOk_init⟩
    refine ⟨h.2, fun a s' ha hs => ⟨fun hok => ?_, fun hw => waitsOk_step h.2 hw hs⟩⟩
    by_contra hw
    exact not_waitsOk_step h.1 hw hs hok

theorem mutex_cond_ok_iff_two : ∃ s s' : State (Fin 2) Unit Unit,
    GuardedRun (step fun _ => 0) (fun s a => Allowed s a ∧ LeavesNoWaiter s a) init s ∧
    s.returns = [.lock 0 () 0 true, .lock 1 () 0 true, .signal 1 () 0, .unlock 1 () 0,
      .lock 0 () 0 true, .wait 0 ⟨(), false, .signalled, -eAgain⟩ (-eTimedOut)] ∧ LocksOk s ∧
    GuardedRun (step fun _ => 0) (fun s a => Allowed s a ∧ WakesNobody s a) init s' ∧
    s'.returns = [.trylock 0 () 0, .signal 1 () 0, .lock 0 () 0 true,
      .wait 0 ⟨(), true, .expired, -eAgain⟩ (-eTimedOut)] ∧ WaitsOk s' := by
  have hrun : GuardedRun (step fun _ : Fin 2 => 0) (fun s a => Allowed s a ∧ LeavesNoWaiter s a)
      init _ :=
    .of_foldlM _ _ [.lock 0 (), .wait 0 () (), .lock 1 (), .signal 1 (), .run 0, .unlock 1 (),
      .run 0] rfl
  have hrun' : GuardedRun (step fun _ : Fin 2 => 0) (fun s a => Allowed s a ∧ WakesNobody s a)
      init _ :=
    .of_foldlM _ _ [.trylock 0 (), .signal 1 (), .timedwait 0 () () 1 500000000, .timeout 0,
      .run 0] rfl
  exact ⟨_, _, hrun, rfl, ((mutex_cond_ok_iff _ _).1 hrun).1, hrun', rfl,
    ((mutex_cond_ok_iff _ _).2 hrun').1⟩

/-- Thread 0 waits while 1 waits for the mutex, and 1 while 0 wants it back. Both locks fail, and
the wait of 0, which was signalled, times out; it then holds the mutex along with 2. -/
theorem mutex_shared : ∃ s : State (Fin 3) Unit Unit, GuardedRun (step fun _ => 0) Allowed init s ∧
    .lock 1 () (-eAgain) false ∈ s.returns ∧
    .wait 0 ⟨(), false, .signalled, -eAgain⟩ (-eTimedOut) ∈ s.returns ∧
    s.holders () = [0, 2] := by
  refine ⟨_, .of_foldlM _ _ [.lock 0 (), .lock 1 (), .wait 0 () (), .run 1, .lock 1 (),
    .signal 1 (), .run 0, .wait 1 () (), .run 0, .lock 2 ()] rfl, ?_, ?_, rfl⟩ <;> decide

end Zephyr.Posix
