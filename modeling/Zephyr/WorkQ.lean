import Mathlib
import Zephyr.Run

/-! The life of one delayed work item of `kernel/work_q.c`, on any number of work queues: where it is
when its flag is set, and what a cancel ends. A submission leads to a call of the handler, in runs
that are fair to the clock interrupt and to the work queue threads, unless a cancel comes first. -/

namespace Zephyr.WorkQ

def eInval : Int := 22
def eAddrInUse : Int := 48

inductive Item where
  | work
  | other
deriving DecidableEq

/-- The timeout of the item: on no list, on `_timeout_q`, or on the list `expired` of the clock
interrupt. -/
inductive Timeout where
  | inactive
  | queued
  | expired
deriving DecidableEq

/-- `_handle_expired_timeouts`: it holds a pointer to the timeout from when the timeout is its
`next`; once it has made the timeout inactive, it calls `work_timeout`. -/
inductive Walk where
  | away
  | saved
  | reached
deriving DecidableEq

/-- `work_q_main`: about to call `k_queue_get`, pending in it, back from it with an item whose flag
is not reset yet, or in the handler. -/
inductive Worker where
  | ready
  | waiting
  | taken (item : Item)
  | handling (item : Item)
deriving DecidableEq

structure State (Q : Type) where
  -- `K_WORK_STATE_PENDING`
  pending : Bool
  workQ : Option Q
  timeout : Timeout
  walk : Walk
  queue : Q → List Item
  worker : Q → Worker
  -- the calls of `k_work_submit_to_queue` between setting the flag and `k_queue_append`
  appending : List Q
  -- how often the handler was called
  runs : Nat
  -- how many cancels succeeded, those of later submissions included
  cancels : Nat
  -- a cancel has returned 0, with no submission since
  cancelled : Bool
  -- a submission has succeeded, and since then no handler was started and no cancel returned 0
  submitted : Bool
  -- a queue at address `NULL` was written to, or a timeout was added twice
  fault : Bool

inductive Action (Q : Type) where
  | submit (q : Q) (delay : Nat)
  | cancel
  | workSubmit (q : Q)
  | append (q : Q)
  | announce
  | save
  | detach
  | fire
  | get (q : Q)
  | start (q : Q)
  | finish (q : Q)
  | submitOther (q : Q)
deriving DecidableEq

def init {Q : Type} : State Q where
  pending := false
  workQ := none
  timeout := .inactive
  walk := .away
  queue _ := []
  worker _ := .ready
  appending := []
  runs := 0
  cancels := 0
  cancelled := false
  submitted := false
  fault := false

section

variable {Q : Type} [DecidableEq Q]

variable (s : State Q) (q : Q)

@[simps -fullyApplied]
def State.setWorker (w : Worker) : State Q :=
  { s with worker := Function.update s.worker q w }

@[simps -fullyApplied]
def State.setQueue (items : List Item) : State Q :=
  { s with queue := Function.update s.queue q items }

def kQueueAppend (item : Item) : State Q :=
  if s.worker q = .waiting then s.setWorker q (.taken item)
  else s.setQueue q (s.queue q ++ [item])

def kQueueRemove : State Q × Bool :=
  if .work ∈ s.queue q then (s.setQueue q ((s.queue q).erase .work), true) else (s, false)

def kWorkSubmitToQueue : State Q :=
  if s.pending then s else kQueueAppend { s with pending := true } q .work

def kWorkSubmitUnlocked (q : Option Q) : State Q :=
  if s.pending then s
  else match q with
    | none => { s with pending := true, fault := true }
    | some q => { s with pending := true, appending := q :: s.appending }

def abortTimeout : State Q := { s with timeout := .inactive }

def addTimeout : State Q :=
  if s.timeout = .inactive then { s with timeout := .queued } else { s with fault := true }

def kDelayedWorkCancel : State Q × Int :=
  match s.workQ with
  | none => (s, -eInval)
  | some q =>
    if s.pending then
      let (s, removed) := kQueueRemove s q
      if removed then ({ s with workQ := none, cancels := s.cancels + 1 }, 0) else (s, -eInval)
    else ({ abortTimeout s with workQ := none, cancels := s.cancels + 1 }, 0)

def kDelayedWorkSubmitToQueue (delay : Nat) : State Q × Int :=
  if s.workQ ≠ none ∧ s.workQ ≠ some q then (s, -eAddrInUse)
  else
    let (s, err) := if s.workQ = some q then kDelayedWorkCancel s else (s, 0)
    if err < 0 then (s, err)
    else
      let s := { s with workQ := some q }
      (if delay = 0 then kWorkSubmitToQueue s q else addTimeout s, 0)

def startWork : Item → State Q
  | .work =>
    if s.pending then
      { s.setWorker q (.handling .work) with
        pending := false, runs := s.runs + 1, submitted := false }
    else s.setWorker q .ready
  | .other => s.setWorker q (.handling .other)

def step : Action Q → Option (State Q)
  | .submit q delay =>
    let (s, err) := kDelayedWorkSubmitToQueue s q delay
    if err = 0 then some { s with cancelled := false, submitted := true } else some s
  | .cancel =>
    let (s, err) := kDelayedWorkCancel s
    if err = 0 then some { s with cancelled := true, submitted := false } else some s
  | .workSubmit q => some { kWorkSubmitUnlocked s q with cancelled := false, submitted := true }
  | .append q =>
    if q ∈ s.appending then
      some (kQueueAppend { s with appending := s.appending.erase q } q .work)
    else none
  | .announce =>
    if s.timeout = .queued ∧ s.walk = .away then some { s with timeout := .expired } else none
  | .save => if s.timeout = .expired ∧ s.walk = .away then some { s with walk := .saved } else none
  | .detach =>
    if s.walk = .saved then some { s with timeout := .inactive, walk := .reached } else none
  | .fire =>
    if s.walk = .reached then some (kWorkSubmitUnlocked { s with walk := .away } s.workQ) else none
  | .get q => match s.worker q, s.queue q with
    | .ready, [] => some (s.setWorker q .waiting)
    | .ready, item :: items => some ((s.setQueue q items).setWorker q (.taken item))
    | _, _ => none
  | .start q => match s.worker q with
    | .taken item => some (startWork s q item)
    | _ => none
  | .finish q => match s.worker q with
    | .handling _ => some (s.setWorker q .ready)
    | _ => none
  | .submitOther q => some (kQueueAppend s q .other)

def Spontaneous : Action Q → Prop
  | .submit .. | .cancel | .workSubmit _ => False
  | _ => True

inductive Place (Q : Type) where
  | appending (q : Q)
  | linked (q : Q)
  | taken (q : Q)

def At : Place Q → Prop
  | .appending q => q ∈ s.appending
  | .linked q => .work ∈ s.queue q
  | .taken q => s.worker q = .taken .work

/-- No cancel finds the item in its queue, and none has to abort a timeout that the clock interrupt
holds on to; a submission that cancels first is one. -/
def CancelsClean : Action Q → Prop
  | .cancel => ∀ q ∈ s.workQ, if s.pending then .work ∉ s.queue q else s.walk = .away
  | .submit q _ => s.workQ = some q → if s.pending then .work ∉ s.queue q else s.walk = .away
  | _ => True

instance (s : State Q) (a : Action Q) : Decidable (CancelsClean s a) := by
  cases a <;> unfold CancelsClean <;> infer_instance

end

open Option Function

variable {Q : Type} {s s' : State Q} {a : Action Q} {q : Q} {p : Option (Place Q)}

section

structure Placed (s : State Q) (p : Option (Place Q)) : Prop where
  appending : ∀ q, q ∈ s.appending ↔ p = some (.appending q)
  linked : ∀ q, .work ∈ s.queue q ↔ p = some (.linked q)
  taken : ∀ q, s.worker q = .taken .work ↔ p = some (.taken q)
  appendOnce : s.appending.Nodup
  linkOnce : ∀ q, (s.queue q).count .work ≤ 1
  idle : ∀ q, s.worker q = .waiting → s.queue q = []

theorem Placed.exists_at (h : Placed s p) : (∃ x, At s x) ↔ p.isSome := by
  have hat : ∀ x, At s x ↔ p = some x := by
    intro x
    cases x with
    | appending q => exact h.appending q
    | linked q => exact h.linked q
    | taken q => exact h.taken q
  rw [isSome_iff_exists]
  exact exists_congr hat

theorem Placed.startAppend (h : Placed s none) (q : Q) :
    Placed { s with appending := q :: s.appending } (some (.appending q)) := by
  obtain ⟨h1, h2, h3, h4, h5, h6⟩ := h
  constructor <;> grind

structure Inv (s : State Q) : Prop where
  place : ∃ p, Placed s p ∧ s.pending = p.isSome
  detached : s.workQ = none → s.timeout = .inactive ∧ s.walk = .away
  quiet : s.cancelled = true → s.pending = false ∧ s.timeout = .inactive ∧ s.walk = .away
  due : s.submitted = true → s.pending = true ∨ s.timeout ≠ .inactive ∨ s.walk ≠ .away
  sound : s.fault = false

theorem Inv.init : Inv (init : State Q) :=
  ⟨⟨none, by constructor <;> simp [WorkQ.init], rfl⟩, fun _ => ⟨rfl, rfl⟩, by simp [WorkQ.init],
    by simp [WorkQ.init], rfl⟩

theorem placed_none (h : ∃ p, Placed s p ∧ s.pending = p.isSome) (hp : s.pending = false) :
    Placed s none := by
  obtain ⟨p, hpl, he⟩ := h
  rw [hp, eq_comm, isSome_eq_false_iff, isNone_iff_eq_none] at he
  exact he ▸ hpl

theorem placed_submitUnlocked (h : ∃ p, Placed s p ∧ s.pending = p.isSome) (q : Q) :
    ∃ x l, kWorkSubmitUnlocked s (some q) = { s with pending := true, appending := l } ∧
      Placed { s with pending := true, appending := l } (some x) := by
  unfold kWorkSubmitUnlocked
  split_ifs with hp
  · obtain ⟨p, hpl, he⟩ := h
    rw [hp, eq_comm, isSome_iff_exists] at he
    obtain ⟨x, rfl⟩ := he
    exact ⟨x, s.appending, by rw [← hp], { hpl with }⟩
  · have hnone := placed_none h (by simpa using hp)
    exact ⟨.appending q, _, rfl, { hnone.startAppend q with }⟩

theorem Inv.clock (h : Inv s) {t : Timeout} {w : Walk}
    (hs : s.timeout ≠ .inactive ∨ s.walk ≠ .away) (hs' : t ≠ .inactive ∨ w ≠ .away) :
    Inv { s with timeout := t, walk := w } := by
  obtain ⟨p, hpl, he⟩ := h.place
  refine ⟨⟨p, { hpl with }, he⟩, fun hq => ?_, fun hq => ?_, fun _ => .inr hs', h.sound⟩
  · simp [h.detached hq] at hs
  · simp [h.quiet hq] at hs

variable [DecidableEq Q]

theorem Placed.append (h : Placed s none) (q : Q) : Placed (kQueueAppend s q .work)
    (some (if s.worker q = .waiting then .taken q else .linked q)) := by
  obtain ⟨h1, h2, h3, h4, h5, h6⟩ := h
  unfold kQueueAppend
  split_ifs with hw
  · constructor <;> simp only [State.setWorker] <;> grind
  · constructor <;> simp only [State.setQueue] <;> grind

theorem Placed.appendOther (h : Placed s p) (q : Q) : Placed (kQueueAppend s q .other) p := by
  obtain ⟨h1, h2, h3, h4, h5, h6⟩ := h
  unfold kQueueAppend
  split_ifs with hw
  · constructor <;> simp only [State.setWorker] <;> grind
  · constructor <;> simp only [State.setQueue] <;> grind

theorem Placed.endAppend (h : Placed s p) (hq : q ∈ s.appending) :
    Placed { s with appending := s.appending.erase q } none := by
  obtain ⟨h1, h2, h3, h4, h5, h6⟩ := h
  constructor <;> grind

theorem Placed.setWorker (h : Placed s p) {w : Worker} (hw : w ≠ .taken .work)
    (hq : s.worker q ≠ .taken .work) (hi : w = .waiting → s.queue q = []) :
    Placed (s.setWorker q w) p := by
  obtain ⟨h1, h2, h3, h4, h5, h6⟩ := h
  constructor <;> simp only [State.setWorker] <;> grind

theorem Placed.start (h : Placed s p) (hq : s.worker q = .taken .work) {w : Worker}
    (hw : w ≠ .taken .work) (hi : w ≠ .waiting) : Placed (s.setWorker q w) none := by
  obtain ⟨h1, h2, h3, h4, h5, h6⟩ := h
  constructor <;> simp only [State.setWorker] <;> grind

theorem Placed.getWork (h : Placed s p) {items : List Item} (hq : s.queue q = .work :: items) :
    Placed ((s.setQueue q items).setWorker q (.taken .work)) (some (.taken q)) := by
  obtain ⟨h1, h2, h3, h4, h5, h6⟩ := h
  constructor <;> simp only [State.setWorker, State.setQueue] <;> grind

theorem Placed.getOther (h : Placed s p) {items : List Item} (hw : s.worker q = .ready)
    (hq : s.queue q = .other :: items) :
    Placed ((s.setQueue q items).setWorker q (.taken .other)) p := by
  obtain ⟨h1, h2, h3, h4, h5, h6⟩ := h
  constructor <;> simp only [State.setWorker, State.setQueue] <;> grind

@[simp] theorem kQueueAppend_frame (s : State Q) (q : Q) (item : Item) :
    (kQueueAppend s q item).pending = s.pending ∧ (kQueueAppend s q item).workQ = s.workQ ∧
    (kQueueAppend s q item).timeout = s.timeout ∧ (kQueueAppend s q item).walk = s.walk ∧
    (kQueueAppend s q item).runs = s.runs ∧ (kQueueAppend s q item).cancels = s.cancels ∧
    (kQueueAppend s q item).cancelled = s.cancelled ∧
    (kQueueAppend s q item).submitted = s.submitted ∧ (kQueueAppend s q item).fault = s.fault := by
  unfold kQueueAppend
  split_ifs <;> simp

theorem cancel_clean (hc : CancelsClean s .cancel) : kDelayedWorkCancel s = (s, -eInval) ∨
    s.pending = false ∧ s.walk = .away ∧ kDelayedWorkCancel s =
        ({ s with timeout := .inactive, workQ := none, cancels := s.cancels + 1 }, 0) := by
  unfold kDelayedWorkCancel
  cases hq : s.workQ with
  | none => exact .inl rfl
  | some q =>
    have hc := hc q hq
    by_cases hp : s.pending = true
    · left
      rw [if_pos hp] at hc
      simp [hp, kQueueRemove, hc]
    · right
      rw [if_neg hp] at hc
      simp [hp, hc, abortTimeout]

theorem cancel_step (hc : CancelsClean s .cancel) (hstep : step s .cancel = some s') : s = s' ∨
    s.pending = false ∧ s.walk = .away ∧ { s with
      timeout := .inactive, workQ := none, cancels := s.cancels + 1, cancelled := true,
      submitted := false } = s' := by
  simp only [step] at hstep
  rcases cancel_clean hc with he | ⟨hp, hw, he⟩
  · left
    simpa [he, eInval] using hstep
  · right
    simpa [he, hp, hw] using hstep

def submitTo (s : State Q) (q : Q) (delay : Nat) : State Q :=
  if delay = 0 then kWorkSubmitToQueue { s with workQ := some q } q
  else addTimeout { s with workQ := some q }

theorem submit_step {delay : Nat} (hc : CancelsClean s (.submit q delay))
    (hstep : step s (.submit q delay) = some s') : s = s' ∨
    s.workQ = none ∧ { submitTo s q delay with cancelled := false, submitted := true } = s' ∨
    { submitTo { s with
      timeout := .inactive, workQ := none, cancels := s.cancels + 1 } q delay with
      cancelled := false, submitted := true } = s' := by
  simp only [step, kDelayedWorkSubmitToQueue] at hstep
  cases hq : s.workQ with
  | none =>
    right; left
    simpa [hq, submitTo] using hstep
  | some q' =>
    by_cases hqq : q' = q
    · subst hqq
      rcases cancel_clean (s := s) (by simpa [CancelsClean, hq] using hc) with he | ⟨-, -, he⟩
      · left
        simpa [hq, he, eInval] using hstep
      · right; right
        simpa [hq, he, submitTo] using hstep
    · left
      simpa [hq, hqq, eAddrInUse] using hstep

theorem Inv.submitTo (h : ∃ p, Placed s p ∧ s.pending = p.isSome) (ht : s.timeout = .inactive)
    (hf : s.fault = false) (q : Q) (delay : Nat) :
    Inv { submitTo s q delay with cancelled := false, submitted := true } := by
  unfold WorkQ.submitTo
  split_ifs with hd
  · unfold kWorkSubmitToQueue
    split_ifs with hp
    · obtain ⟨p, hpl, he⟩ := h
      exact ⟨⟨p, { hpl with }, he⟩, by simp, by simp, fun _ => .inl hp, hf⟩
    · have hp : s.pending = false := by simpa using hp
      have hx := Placed.append (s := { s with workQ := some q, pending := true })
        ({ placed_none h hp with }) q
      refine ⟨⟨_, { hx with }, ?_⟩, ?_, by simp, ?_, ?_⟩ <;> simp [hf]
  · obtain ⟨p, hpl, he⟩ := h
    simp only [addTimeout, ht, if_true]
    exact ⟨⟨p, { hpl with }, he⟩, by simp, by simp, by simp, hf⟩

theorem Inv.step (h : Inv s) (hc : CancelsClean s a) (hstep : step s a = some s') : Inv s' := by
  obtain ⟨p, hpl, he⟩ := h.place
  cases a with
  | submit q delay =>
    rcases submit_step hc hstep with rfl | ⟨hq, rfl⟩ | rfl
    · exact h
    · exact .submitTo h.place (h.detached hq).1 h.sound q delay
    · exact Inv.submitTo
        (s := { s with timeout := .inactive, workQ := none, cancels := s.cancels + 1 })
        ⟨p, { hpl with }, he⟩ rfl h.sound q delay
  | cancel =>
    rcases cancel_step hc hstep with rfl | ⟨hp, hw, rfl⟩
    · exact h
    · exact ⟨⟨p, { hpl with }, he⟩, fun _ => ⟨rfl, hw⟩, fun _ => ⟨hp, rfl, hw⟩, by simp,
        h.sound⟩
  | workSubmit q =>
    obtain ⟨x, _, hl, hx⟩ := placed_submitUnlocked h.place q
    cases hstep
    rw [hl]
    exact ⟨⟨some x, { hx with }, rfl⟩, h.detached, nofun, fun _ => .inl rfl, h.sound⟩
  | append q =>
    simp only [WorkQ.step] at hstep
    split_ifs at hstep with hq
    have hp : s.pending = true := by
      rw [he, (hpl.appending q).mp hq]
      rfl
    have hx := (hpl.endAppend hq).append q
    cases hstep
    refine ⟨⟨_, hx, ?_⟩, ?_, ?_, ?_, ?_⟩ <;> simp [h.sound, hp]
    · exact h.detached
    · exact Bool.eq_false_iff.mpr fun hq => by simpa [hp] using h.quiet hq
  | announce | save | detach =>
    simp only [WorkQ.step] at hstep
    split_ifs at hstep with ht
    exact some.inj hstep ▸ h.clock (by simp [ht]) (by simp)
  | fire =>
    simp only [WorkQ.step] at hstep
    split_ifs at hstep with ht
    cases hq : s.workQ with
    | none => exact absurd (h.detached hq).2 (by simp [ht])
    | some q =>
      have hcan : s.cancelled = false :=
        Bool.eq_false_iff.mpr fun hcan => by simpa [ht] using h.quiet hcan
      obtain ⟨x, _, hl, hx⟩ := placed_submitUnlocked (s := { s with walk := .away })
        ⟨p, { hpl with }, he⟩ q
      rw [← hq] at hl
      rw [hl] at hstep
      cases hstep
      exact ⟨⟨some x, hx, rfl⟩, by simp [hq], by simp [hcan], fun _ => .inl rfl, h.sound⟩
  | get q =>
    simp only [WorkQ.step] at hstep
    split at hstep
    · rename_i hw hq
      cases hstep
      exact { h with place := ⟨p, hpl.setWorker (by simp) (by simp [hw]) (fun _ => hq), he⟩ }
    · rename_i item items hw hq
      cases hstep
      cases item with
      | work =>
        refine { h with place := ⟨_, hpl.getWork hq, ?_⟩ }
        simpa [he] using congrArg isSome ((hpl.linked q).mp (by simp [hq]))
      | other => exact { h with place := ⟨p, hpl.getOther hw hq, he⟩ }
    · cases hstep
  | start q =>
    simp only [WorkQ.step] at hstep
    split at hstep
    · rename_i item hw
      cases hstep
      cases item with
      | work =>
        have hp : s.pending = true := by
          rw [he, (hpl.taken q).mp hw]
          rfl
        have hcan : s.cancelled = false :=
          Bool.eq_false_iff.mpr fun hcan => by simpa [hp] using h.quiet hcan
        simp only [startWork, hp, if_true]
        refine ⟨⟨none, { hpl.start hw (w := .handling .work) ?_ ?_ with }, rfl⟩,
          h.detached, ?_, ?_, h.sound⟩ <;> simp [hcan]
      | other =>
        exact { h with place := ⟨p, hpl.setWorker (by simp) (by simp [hw]) (by simp), he⟩ }
    · cases hstep
  | finish q =>
    simp only [WorkQ.step] at hstep
    split at hstep
    · rename_i item hw
      cases hstep
      exact { h with place := ⟨p, hpl.setWorker (by simp) (by simp [hw]) (by simp), he⟩ }
    · cases hstep
  | submitOther q =>
    cases hstep
    have hf := kQueueAppend_frame s q .other
    refine ⟨⟨p, hpl.appendOther q, ?_⟩, ?_, ?_, ?_, ?_⟩ <;> simp only [hf]
    exacts [he, h.detached, h.quiet, h.due, h.sound]

end

open List

variable {p' : Option (Place Q)}

theorem Placed.ne_taken (h : Placed s p) (hw : s.worker q ≠ .taken .work) : p ≠ some (.taken q) :=
  fun he => hw ((h.taken q).mpr he)

theorem Placed.unique (h : Placed s p) (h' : Placed s p') : p = p' := by
  refine ext fun x => ?_
  cases x with
  | appending q => exact (h.appending q).symm.trans (h'.appending q)
  | linked q => exact (h.linked q).symm.trans (h'.linked q)
  | taken q => exact (h.taken q).symm.trans (h'.taken q)

theorem cancelsClean_of_spontaneous (ha : Spontaneous a) : CancelsClean s a := by
  cases a <;> trivial

def distance (s : State Q) : Option (Place Q) → Nat × Nat
  | some (.taken _) => (0, 0)
  | some (.linked q) => (1, 3 * (s.queue q).idxOf .work + match s.worker q with
    | .ready | .waiting => 0
    | .handling _ => 1
    | .taken _ => 2)
  | some (.appending _) => (2, 0)
  | none => match s.walk, s.timeout with
    | .reached, _ => (3, 0)
    | .saved, _ => (4, 0)
    | .away, .expired => (5, 0)
    | .away, _ => (6, 0)

def dueAction (s : State Q) : Option (Place Q) → Action Q
  | some (.taken q) => .start q
  | some (.linked q) => match s.worker q with
    | .ready | .waiting => .get q
    | .handling _ => .finish q
    | .taken _ => .start q
  | some (.appending q) => .append q
  | none => match s.walk, s.timeout with
    | .reached, _ => .fire
    | .saved, _ => .detach
    | .away, .expired => .save
    | .away, _ => .announce

theorem same_of_frame (hq : ∀ q, p = some (.linked q) →
      (s'.queue q).idxOf .work = (s.queue q).idxOf .work ∧ s'.worker q = s.worker q)
    (hn : p = none → s'.walk = s.walk ∧ s'.timeout = s.timeout) :
    distance s' p = distance s p ∧ dueAction s' p = dueAction s p := by
  cases p with
  | none => simp [distance, dueAction, hn rfl]
  | some x =>
    cases x with
    | linked q => simp [distance, dueAction, hq q rfl]
    | _ => exact ⟨rfl, rfl⟩

variable [DecidableEq Q]

theorem due_enabled (h : Inv s) (hp : Placed s p) (hpend : s.pending = p.isSome)
    (hsub : s.submitted = true) :
    Spontaneous (dueAction s p) ∧ (step s (dueAction s p)).isSome := by
  cases p with
  | none =>
    have hdue := h.due hsub
    cases hw : s.walk <;> cases ht : s.timeout <;> simp_all [dueAction, Spontaneous, step]
  | some x =>
    cases x with
    | taken q =>
      have hw := (hp.taken q).mpr rfl
      simp [dueAction, Spontaneous, step, hw]
    | appending q =>
      have hq := (hp.appending q).mpr rfl
      simp [dueAction, Spontaneous, step, hq]
    | linked q =>
      have hq := (hp.linked q).mpr rfl
      have hne : s.worker q ≠ .waiting := fun hw => by simp [hp.idle q hw] at hq
      obtain ⟨_, _, hi⟩ := exists_cons_of_ne_nil (ne_nil_of_mem hq)
      cases hw : s.worker q <;> simp_all [dueAction, Spontaneous, step]

def Nearer (d d' : Nat × Nat) : Prop := Prod.Lex (· < ·) (· < ·) d d'

def Moves (s : State Q) (p : Option (Place Q)) (a : Action Q) (s' : State Q) : Prop :=
  (s.runs < s'.runs ∨ s.cancels < s'.cancels) ∨
  s'.submitted = true ∧ s'.runs = s.runs ∧ s'.cancels = s.cancels ∧ ∃ p', Placed s' p' ∧
    (Nearer (distance s' p') (distance s p) ∨
      a ≠ dueAction s p ∧ p' = p ∧ distance s' p = distance s p ∧ dueAction s' p = dueAction s p)

section

omit [DecidableEq Q]

theorem Moves.same (hp : Placed s' p) (hsub : s'.submitted = true) (hr : s'.runs = s.runs)
    (hc : s'.cancels = s.cancels) (ha : a ≠ dueAction s p) (hq : ∀ q, p = some (.linked q) →
      (s'.queue q).idxOf .work = (s.queue q).idxOf .work ∧ s'.worker q = s.worker q)
    (hn : p = none → s'.walk = s.walk ∧ s'.timeout = s.timeout) : Moves s p a s' :=
  .inr ⟨hsub, hr, hc, p, hp, .inr ⟨ha, rfl, same_of_frame hq hn⟩⟩

theorem Moves.nearer (hp : Placed s' p') (hsub : s'.submitted = true) (hr : s'.runs = s.runs)
    (hc : s'.cancels = s.cancels) (hd : Nearer (distance s' p') (distance s p)) : Moves s p a s' :=
  .inr ⟨hsub, hr, hc, p', hp, .inl hd⟩

theorem nearer_of_placed (x : Place Q) : Nearer (distance s' (some x)) (distance s none) := by
  refine Prod.Lex.left _ _ ?_
  cases x <;> cases s.walk <;> cases s.timeout <;> simp

end

@[simp] theorem submitTo_frame (s : State Q) (q : Q) (delay : Nat) :
    (submitTo s q delay).runs = s.runs ∧ (submitTo s q delay).cancels = s.cancels := by
  unfold submitTo kWorkSubmitToQueue addTimeout
  split_ifs <;> simp

theorem submitTo_pending (hp : s.pending = true) (q : Q) (delay : Nat) :
    ∃ timeout fault, submitTo s q delay = { s with workQ := some q, timeout, fault } := by
  unfold submitTo kWorkSubmitToQueue addTimeout
  split_ifs <;> exact ⟨_, _, rfl⟩

theorem submit_moves {delay : Nat} (h : Inv s) (hp : Placed s p) (hpend : s.pending = p.isSome)
    (hsub : s.submitted = true) (hc : CancelsClean s (.submit q delay))
    (hstep : step s (.submit q delay) = some s') : Moves s p (.submit q delay) s' := by
  have ha : .submit q delay ≠ dueAction s p := fun he => by
    simpa [← he, Spontaneous] using (due_enabled h hp hpend hsub).1
  rcases submit_step hc hstep with rfl | ⟨hq, rfl⟩ | rfl
  · exact .same hp hsub rfl rfl ha (fun _ _ => ⟨rfl, rfl⟩) (fun _ => ⟨rfl, rfl⟩)
  · -- without a work queue the item has no timeout, so its flag is set
    have hpt : s.pending = true := by simpa [h.detached hq] using h.due hsub
    obtain ⟨_, _, hto⟩ := submitTo_pending hpt q delay
    rw [hto]
    refine .same { hp with } rfl rfl rfl ha (fun _ _ => ⟨rfl, rfl⟩) ?_
    rintro rfl
    simp [hpt] at hpend
  · exact .inl (.inr (by simp))

section

omit [DecidableEq Q]

theorem place_of_due (h : dueAction s p = .get q ∨ dueAction s p = .finish q ∨
    dueAction s p = .start q) : p = some (.linked q) ∨ p = some (.taken q) := by
  cases p with
  | none => cases hw : s.walk <;> cases ht : s.timeout <;> simp [dueAction, hw, ht] at h
  | some x =>
    cases x with
    | appending r => simp [dueAction] at h
    | taken r => simp_all [dueAction]
    | linked r =>
      left
      cases hw : s.worker r <;> simp_all [dueAction]

theorem clock_moves (hp : Placed s p) (hsub : s.submitted = true) {t : Timeout} {w : Walk}
    (ha : a = .announce ∨ a = .save ∨ a = .detach)
    (hd : Nearer (distance { s with timeout := t, walk := w } none) (distance s none)) :
    Moves s p a { s with timeout := t, walk := w } := by
  cases p with
  | none => exact .nearer { hp with } hsub rfl rfl hd
  | some x =>
    refine .same { hp with } hsub rfl rfl (fun he => ?_) (fun _ _ => ⟨rfl, rfl⟩)
      (by simp)
    rw [he] at ha
    cases x with
    | linked q => cases hw : s.worker q <;> simp [dueAction, hw] at ha
    | _ => simp [dueAction] at ha

theorem submitUnlocked_moves (hp : Placed s p) (hpend : s.pending = p.isSome) {c : Bool} {w : Walk}
    (ha : ∀ x, p = some x → a ≠ dueAction s p) :
    Moves s p a { kWorkSubmitUnlocked s (some q) with
      cancelled := c, submitted := true, walk := w } := by
  cases p with
  | none =>
    have hx := hp.startAppend q
    simp only [kWorkSubmitUnlocked, hpend]
    exact .nearer { hx with } rfl rfl rfl (nearer_of_placed _)
  | some x =>
    simp only [kWorkSubmitUnlocked, hpend]
    exact .same { hp with } rfl rfl rfl (ha x rfl) (fun _ _ => ⟨rfl, rfl⟩) (by simp)

theorem worker_moves (q : Q) (hp : Placed s' p) (hsub : s'.submitted = true) (hr : s'.runs = s.runs)
    (hc : s'.cancels = s.cancels) (hw : s'.walk = s.walk ∧ s'.timeout = s.timeout)
    (hoff : ∀ r, r ≠ q → s'.queue r = s.queue r ∧ s'.worker r = s.worker r)
    (ha : a = .get q ∨ a = .finish q ∨ a = .start q) (hne : p ≠ some (.taken q))
    (hd : p = some (.linked q) → Nearer (distance s' p) (distance s p)) : Moves s p a s' := by
  by_cases hl : p = some (.linked q)
  · exact .nearer hp hsub hr hc (hd hl)
  · refine .same hp hsub hr hc ?_ ?_ fun _ => hw
    · rintro rfl
      exact (place_of_due ha).elim hl hne
    · rintro r rfl
      obtain ⟨hq, hwk⟩ := hoff r fun he => hl (he ▸ rfl)
      rw [hq, hwk]
      exact ⟨rfl, rfl⟩

end

theorem Placed.appendOther_frame {r : Q} (h : Placed s (some (.linked r))) (q : Q) :
    ((kQueueAppend s q .other).queue r).idxOf .work = (s.queue r).idxOf .work ∧
      (kQueueAppend s q .other).worker r = s.worker r := by
  have hmem := (h.linked r).mpr rfl
  unfold kQueueAppend
  rcases eq_or_ne r q with rfl | hne
  · have hw : s.worker r ≠ .waiting := fun hw => by simp [h.idle r hw] at hmem
    simp [hw, idxOf_append_of_mem hmem]
  · split_ifs <;> simp [hne]

theorem step_moves (h : Inv s) (hp : Placed s p) (hpend : s.pending = p.isSome)
    (hsub : s.submitted = true) (hc : CancelsClean s a) (hstep : step s a = some s') :
    Moves s p a s' := by
  have hspon := (due_enabled h hp hpend hsub).1
  cases a with
  | submit q delay => exact submit_moves h hp hpend hsub hc hstep
  | cancel =>
    have ha : .cancel ≠ dueAction s p := fun he => by simp [← he, Spontaneous] at hspon
    rcases cancel_step hc hstep with rfl | ⟨-, -, rfl⟩
    · exact .same hp hsub rfl rfl ha (fun _ _ => ⟨rfl, rfl⟩) (fun _ => ⟨rfl, rfl⟩)
    · exact .inl (.inr (Nat.lt_succ_self _))
  | workSubmit q =>
    have ha : .workSubmit q ≠ dueAction s p := fun he => by simp [← he, Spontaneous] at hspon
    cases hstep
    exact submitUnlocked_moves hp hpend fun _ _ => ha
  | append q =>
    simp only [step] at hstep
    split_ifs at hstep with hq
    have hx := (hp.endAppend hq).append q
    cases hstep
    obtain rfl := (hp.appending q).mp hq
    refine .nearer hx ?_ ?_ ?_ (Prod.Lex.left _ _ ?_)
    · simpa using hsub
    · simp
    · simp
    · split_ifs <;> simp
  | announce | save | detach =>
    simp only [step] at hstep
    split_ifs at hstep with ht
    cases hstep
    exact clock_moves hp hsub (by simp) (Prod.Lex.left _ _ (by simp [ht]))
  | fire =>
    simp only [step] at hstep
    split_ifs at hstep with ht
    obtain ⟨q, hq⟩ : ∃ q, s.workQ = some q :=
      ne_none_iff_exists'.mp fun hq => by simpa [ht] using (h.detached hq).2
    have hm := submitUnlocked_moves (a := .fire) (q := q) (c := s.cancelled) (w := .away) hp
      hpend ?_
    · convert hm using 1
      cases hstep
      simp only [kWorkSubmitUnlocked]
      split_ifs <;> simp [hsub, hq]
    · rintro x rfl he
      cases x with
      | linked r => cases hw : s.worker r <;> simp [dueAction, hw] at he
      | _ => simp [dueAction] at he
  | get q =>
    simp only [step] at hstep
    split at hstep
    · rename_i hw hq
      cases hstep
      refine worker_moves q (hp.setWorker (by simp) (by simp [hw]) fun _ => hq) hsub rfl rfl
        ⟨rfl, rfl⟩ (fun r hr => ⟨rfl, update_of_ne hr ..⟩) (by simp)
        (hp.ne_taken (by simp [hw])) fun he => ?_
      simpa [hq] using (hp.linked q).mpr he
    · rename_i item items hw hq
      cases hstep
      cases item with
      | work =>
        obtain rfl := (hp.linked q).mp (by simp [hq])
        exact .nearer (hp.getWork hq) hsub rfl rfl (Prod.Lex.left _ _ (by simp))
      | other =>
        refine worker_moves q (hp.getOther hw hq) hsub rfl rfl ⟨rfl, rfl⟩
          (fun r hr => ⟨update_of_ne hr .., update_of_ne hr ..⟩) (by simp)
          (hp.ne_taken (by simp [hw])) ?_
        rintro rfl
        refine Prod.Lex.right _ ?_
        have hidx : (Item.other :: items).idxOf .work = items.idxOf .work + 1 :=
          idxOf_cons_ne _ (by simp)
        simp only [State.setWorker_queue, State.setWorker_worker, State.setQueue_queue,
          update_self, hq]
        omega
    · cases hstep
  | start q =>
    simp only [step] at hstep
    split at hstep
    · rename_i item hw
      cases hstep
      cases item with
      | work =>
        obtain rfl := (hp.taken q).mp hw
        simp only [startWork, hpend]
        exact .inl (.inl (Nat.lt_succ_self _))
      | other =>
        refine worker_moves q (hp.setWorker (by simp) (by simp [hw]) (by simp)) hsub rfl rfl
          ⟨rfl, rfl⟩ (fun r hr => ⟨rfl, update_of_ne hr ..⟩) (by simp)
          (hp.ne_taken (by simp [hw])) ?_
        rintro rfl
        exact Prod.Lex.right _ (by simp [startWork, hw])
    · cases hstep
  | finish q =>
    simp only [step] at hstep
    split at hstep
    · rename_i item hw
      cases hstep
      refine worker_moves q (hp.setWorker (by simp) (by simp [hw]) (by simp)) hsub rfl rfl
        ⟨rfl, rfl⟩ (fun r hr => ⟨rfl, update_of_ne hr ..⟩) (by simp)
        (hp.ne_taken (by simp [hw])) ?_
      rintro rfl
      exact Prod.Lex.right _ (by simp [hw])
    · cases hstep
  | submitOther q =>
    cases hstep
    refine .same (hp.appendOther q) ?_ ?_ ?_ ?_ ?_ ?_
    · simpa using hsub
    · simp
    · simp
    · intro he
      cases p with
      | none => cases hw : s.walk <;> cases ht : s.timeout <;> simp [dueAction, hw, ht] at he
      | some x =>
        cases x with
        | linked r => cases hw : s.worker r <;> simp [dueAction, hw] at he
        | _ => simp [dueAction] at he
    · rintro r rfl
      exact hp.appendOther_frame q
    · simp

open Classical in
noncomputable def place (s : State Q) : Option (Place Q) :=
  if h : ∃ p, Placed s p then h.choose else none

omit [DecidableEq Q] in
theorem Placed.place_eq (h : Placed s p) : place s = p := by
  have hex : ∃ p, Placed s p := ⟨p, h⟩
  rw [place, dif_pos hex]
  exact hex.choose_spec.unique h

def Waiting (runs cancels : Nat) (s : State Q) : Prop :=
  Inv s ∧ s.submitted = true ∧ s.runs = runs ∧ s.cancels = cancels

theorem waiting_progress {runs cancels : Nat} (h : Waiting runs cancels s) (hc : CancelsClean s a)
    (hstep : step s a = some s') :
    Progress (fun s => runs < s.runs ∨ cancels < s.cancels) (Waiting runs cancels)
      (Prod.Lex (· < ·) (· < ·)) (fun s => distance s (place s))
      (fun s => dueAction s (place s)) s a s' := by
  obtain ⟨h, hsub, rfl, rfl⟩ := h
  obtain ⟨p, hp, hpend⟩ := h.place
  rcases step_moves h hp hpend hsub hc hstep with hgoal | ⟨hsub', hr, hcan, _, hp', hmove⟩
  · exact .inl hgoal
  · refine .inr ⟨⟨h.step hc hstep, hsub', hr, hcan⟩, ?_⟩
    simp only [hp.place_eq, hp'.place_eq]
    rcases hmove with hlt | ⟨hne, rfl, hd, hdue⟩
    · exact .inl hlt
    · exact .inr ⟨hne, hd, hdue⟩

theorem submitted_leads_to_run (r : FairRun step CancelsClean (Spontaneous (Q := Q)))
    (h : Inv (r.state 0)) (hsub : (r.state 0).submitted = true) :
    ∃ n, (r.state 0).runs < (r.state n).runs ∨ (r.state 0).cancels < (r.state n).cancels := by
  have hdue : ∀ s : State Q, Waiting (r.state 0).runs (r.state 0).cancels s →
      Spontaneous (dueAction s (place s)) ∧ (step s (dueAction s (place s))).isSome := by
    rintro s ⟨h, hsub, -, -⟩
    obtain ⟨p, hp, hpend⟩ := h.place
    rw [hp.place_eq]
    exact due_enabled h hp hpend hsub
  obtain ⟨n, -, hn⟩ := r.eventually _ _ (WellFounded.prod_lex Nat.lt_wfRel.wf Nat.lt_wfRel.wf) _ _
    hdue (fun s a s' => waiting_progress) ⟨h, hsub, rfl, rfl⟩
  exact ⟨n, hn⟩

/-- The life cycle of a delayed work item: the flag is set while the item is in a queue, on its way
into one or taken out of one and not started; after a cancel nothing runs until the next submission;
a submission leads to a run. -/
structure LifeCycle (s : State Q) : Prop where
  pending_iff : s.pending = true ↔ ∃ x, At s x
  quiet : s.cancelled = true → ∀ (acts : List (Action Q)) (s' : State Q),
    (∀ a ∈ acts, Spontaneous a) → acts.foldlM step s = some s' → s'.runs = s.runs ∧ s'.fault = false
  delivered : s.submitted = true → ∀ r : FairRun step CancelsClean (Spontaneous (Q := Q)),
    r.state 0 = s → ∃ n, s.runs < (r.state n).runs ∨ s.cancels < (r.state n).cancels
  sound : s.fault = false

theorem cancelled_step (h : Inv s) (hcan : s.cancelled = true) (ha : Spontaneous a)
    (hstep : step s a = some s') : s'.cancelled = true ∧ s'.runs = s.runs := by
  obtain ⟨hp, ht, hw⟩ := h.quiet hcan
  have hpl := placed_none h.place hp
  cases a with
  | submit => exact ha.elim
  | cancel => exact ha.elim
  | workSubmit => exact ha.elim
  | append q => simp [step, hpl.appending q] at hstep
  | announce => simp [step, ht] at hstep
  | save => simp [step, ht] at hstep
  | detach => simp [step, hw] at hstep
  | fire => simp [step, hw] at hstep
  | get q =>
    simp only [step] at hstep
    split at hstep
    · exact some.inj hstep ▸ ⟨hcan, rfl⟩
    · exact some.inj hstep ▸ ⟨hcan, rfl⟩
    · cases hstep
  | start q =>
    simp only [step] at hstep
    split at hstep
    · rename_i item hwk
      cases item with
      | work => cases (hpl.taken q).mp hwk
      | other => exact some.inj hstep ▸ ⟨hcan, rfl⟩
    · cases hstep
  | finish q =>
    simp only [step] at hstep
    split at hstep
    · exact some.inj hstep ▸ ⟨hcan, rfl⟩
    · cases hstep
  | submitOther q =>
    cases hstep
    simpa using hcan

theorem Inv.quiet_run (h : Inv s) (hcan : s.cancelled = true) {acts : List (Action Q)}
    (ha : ∀ a ∈ acts, Spontaneous a) (hrun : acts.foldlM WorkQ.step s = some s') :
    s'.runs = s.runs ∧ s'.fault = false := by
  induction acts generalizing s with
  | nil =>
    obtain rfl : s = s' := by simpa using hrun
    exact ⟨rfl, h.sound⟩
  | cons a acts ih =>
    obtain ⟨u, hu, hrun⟩ := bind_eq_some_iff.mp hrun
    have hsp := ha a mem_cons_self
    obtain ⟨hcan', hruns⟩ := cancelled_step h hcan hsp hu
    rw [← hruns]
    exact ih (h.step (cancelsClean_of_spontaneous hsp) hu) hcan'
      (fun b hb => ha b (mem_cons_of_mem a hb)) hrun

theorem Inv.lifeCycle (h : Inv s) : LifeCycle s := by
  obtain ⟨p, hp, hpend⟩ := h.place
  refine ⟨?_, fun hcan acts s' ha hrun => h.quiet_run hcan ha hrun, ?_, h.sound⟩
  · rw [hp.exists_at, hpend]
  · rintro hsub r rfl
    exact submitted_leads_to_run r h hsub

theorem not_lifeCycle_of_removed (h : Inv s) (hp : s.pending = true) (hq : s.workQ = some q)
    (hmem : .work ∈ s.queue q) (hstep : step s .cancel = some s') : ¬ LifeCycle s' := by
  intro h'
  obtain ⟨p, hpl, -⟩ := h.place
  obtain rfl := (hpl.linked q).mp hmem
  simp only [step, kDelayedWorkCancel, hq, hp, if_true, kQueueRemove, hmem, some_inj] at hstep
  subst hstep
  obtain ⟨x, hx⟩ := h'.pending_iff.mp hp
  cases x with
  | appending r => cases (hpl.appending r).mp hx
  | taken r => cases (hpl.taken r).mp hx
  | linked r =>
    rcases eq_or_ne r q with rfl | hne
    · have hcount : ((s.queue r).erase .work).count .work = 0 := by
        have := hpl.linkOnce r
        rw [count_erase_self]
        omega
      exact count_eq_zero.mp hcount (by simpa [At] using hx)
    · have hr : .work ∈ s.queue r := by simpa [At, hne] using hx
      cases (hpl.linked r).mp hr
      exact hne rfl

theorem not_lifeCycle_of_walk (hp : s.pending = false) (hq : s.workQ = some q)
    (hw : s.walk ≠ .away) (hstep : step s .cancel = some s') : ¬ LifeCycle s' := by
  intro h'
  simp only [step, kDelayedWorkCancel, hq, hp, Bool.false_eq_true, if_false, abortTimeout, if_true,
    some_inj] at hstep
  subst hstep
  cases hwalk : s.walk with
  | away => exact hw hwalk
  | saved =>
    have hquiet := h'.quiet rfl [.detach, .fire] _ (by simp [Spontaneous])
      (by simp [step, hwalk, kWorkSubmitUnlocked]; rfl)
    simp at hquiet
  | reached =>
    have hquiet := h'.quiet rfl [.fire] _ (by simp [Spontaneous])
      (by simp [step, hwalk, kWorkSubmitUnlocked]; rfl)
    simp at hquiet

theorem cancel_lifeCycle_iff (h : Inv s) (hstep : step s .cancel = some s') :
    LifeCycle s' ↔ CancelsClean s .cancel := by
  refine ⟨fun h' q hq => ?_, fun hc => (h.step hc hstep).lifeCycle⟩
  cases hp : s.pending with
  | true => exact fun hmem => not_lifeCycle_of_removed h hp hq hmem hstep h'
  | false =>
    by_contra hw
    exact not_lifeCycle_of_walk hp hq (by simpa using hw) hstep h'

end Zephyr.WorkQ
