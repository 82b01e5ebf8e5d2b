import Zephyr.Dlist
import Zephyr.Run

/-! `kernel/poll.c`: a poller puts an event on the list of every object it polls, and takes its events
off again. Interrupts are locked for one event at a time. The lists stay exact as long as no poller
clears an event that was signalled while another has come to stand where it was. -/

namespace Zephyr.Poll

open Function

inductive Kind where
  | sem
  | queue
  | signal
deriving DecidableEq

/-- `K_POLL_STATE_SEM_AVAILABLE`, `K_POLL_STATE_DATA_AVAILABLE` and `K_POLL_STATE_SIGNALED`. -/
def Kind.state : Kind → BitVec 32
  | .sem => 2#32
  | .queue => 4#32
  | .signal => 1#32

def stateNotReady : BitVec 32 := 0#32

def eAgain : Int := -11

def eIntr : Int := -4

/-- The `poll_events` list of an object and the `_node` of an event. -/
inductive Node (O E : Type) where
  | obj (o : O)
  | event (e : E)
deriving DecidableEq

/-- Where a thread is in `k_poll`. `registered` is `last_registered + 1`; `left` are the
registrations still to clear, the last one first. -/
inductive Pc (E : Type) where
  | idle
  | scan (events : List E) (ii registered : Nat) (noWait : Bool)
  | pended (events : List E) (registered : Nat)
  | clear (left : List E)
deriving DecidableEq

/-- `obj` is an event's object, none when its type is `K_POLL_TYPE_IGNORE`; `poller` the thread of
the event's `_poller`; `met` whether an object's condition is met; `ret` the return value of a
`k_poll` or of the swap in it. The last two fields only record: the events that were signalled
since they were registered, and how many registrations there were. -/
structure State (T O E : Type) where
  links : Links (Node O E)
  obj : E → Option O
  poller : E → Option T
  eventState : E → BitVec 32
  polling : T → Bool
  pending : T → Bool
  expired : T → Bool
  ret : T → Int
  met : O → Bool
  pc : T → Pc E
  signalled : E → Bool
  regs : Nat

variable {T O E : Type}

def isConditionMet (kind : O → Kind) (s : State T O E) (e : E) : Option (BitVec 32) :=
  match s.obj e with
  | none => none
  | some o => if s.met o then some (kind o).state else none

section

variable [DecidableEq T] [DecidableEq O] [DecidableEq E]

/-- The loop of `add_event` from `pending` on; `none` when it does not end within the fuel or
reads a null poller. -/
def addLoop (prio : T → Int) (s : State T O E) (o : O) (e : E) (t : T) :
    Nat → Option (Node O E) → Option (Links (Node O E))
  | _, none => some (sysDlistAppend s.links (.obj o) (.event e))
  | fuel + 1, some (.event pending) => do
    let poller ← s.poller pending
    if prio t < prio poller then
      some (sysDlistInsertBefore s.links (.event pending) (.event e))
    else addLoop prio s o e t fuel (sysDlistPeekNext s.links (.obj o) (some (.event pending)))
  | _, _ => none

variable (kind : O → Kind) (prio : T → Int) (s : State T O E) (o : O) (e : E)

def addEvent (t : T) : Option (Links (Node O E)) :=
  match sysDlistPeekTail s.links (.obj o) with
  | none => some (sysDlistAppend s.links (.obj o) (.event e))
  | some (.event pending) => do
    let poller ← s.poller pending
    if prio poller < prio t then some (sysDlistAppend s.links (.obj o) (.event e))
    else addLoop prio s o e t s.regs (sysDlistPeekHead s.links (.obj o))
  | some (.obj _) => none

def registerEvent (t : T) : Option (State T O E) := do
  let links ← match s.obj e with
    | some o => addEvent prio s o e t
    | none => some s.links
  return { s with
    links
    poller := update s.poller e (some t)
    signalled := update s.signalled e false
    regs := s.regs + 1 }

def clearEventRegistration : State T O E :=
  let s := { s with poller := update s.poller e none }
  match s.obj e with
  | some _ => { s with links := sysDlistRemove s.links (.event e) }
  | none => s

def setEventReady (state : BitVec 32) : State T O E :=
  { s with
    poller := update s.poller e none
    eventState := update s.eventState e (s.eventState e ||| state) }

def signalPollEvent (state : BitVec 32) : State T O E :=
  match s.poller e with
  | none => setEventReady s e state
  | some t =>
    let s := { s with polling := update s.polling t false }
    if s.pending t = false then setEventReady s e state
    else if s.expired t then s
    else
      let rc := if state = stateNotReady then eIntr else 0
      setEventReady { s with
        pending := update s.pending t false
        ret := update s.ret t rc } e state

def handleObjPollEvents (state : BitVec 32) : State T O E :=
  match sysDlistGet s.links (.obj o) with
  | (some (.event e), links) =>
    signalPollEvent { s with links, signalled := update s.signalled e true } e state
  | _ => s

def raiseEvent (state : BitVec 32) : State T O E :=
  handleObjPollEvents { s with met := update s.met o true } o state

/-- When no thread waits in `k_sem_take`; otherwise the pollers are not told. -/
def kSemGive : State T O E := raiseEvent s o Kind.sem.state

def kQueueInsert : State T O E := raiseEvent s o Kind.queue.state

def kPollSignal : State T O E := raiseEvent s o Kind.signal.state

def give : State T O E :=
  match kind o with
  | .sem => kSemGive s o
  | .queue => kQueueInsert s o
  | .signal => kPollSignal s o

def kQueueCancelWait : State T O E := handleObjPollEvents s o stateNotReady

def scanEvent (t : T) (events : List E)
    (ii registered : Nat) (noWait : Bool) (e : E) : Option (State T O E) :=
  match isConditionMet kind s e with
  | some state =>
    let s := setEventReady s e state
    some { s with
      polling := update s.polling t false
      pc := update s.pc t (.scan events (ii + 1) registered noWait) }
  | none =>
    if noWait = false ∧ s.polling t then do
      let s ← registerEvent prio s e t
      return { s with pc := update s.pc t (.scan events (ii + 1) (registered + 1) noWait) }
    else some { s with pc := update s.pc t (.scan events (ii + 1) registered noWait) }

def clearNext (t : T) : List E → State T O E
  | [] => { s with pc := update s.pc t .idle }
  | e :: left =>
    let s := clearEventRegistration s e
    { s with pc := update s.pc t (.clear left) }

def decidePend (t : T) (events : List E) (registered : Nat) (noWait : Bool) : State T O E :=
  if s.polling t = false then
    clearNext { s with ret := update s.ret t 0 } t (events.take registered).reverse
  else
    let s := { s with
      polling := update s.polling t false, ret := update s.ret t eAgain }
    if noWait then { s with pc := update s.pc t .idle }
    else { s with
      pending := update s.pending t true
      pc := update s.pc t (.pended events registered) }

inductive Act (T O E : Type) where
  | init (e : E) (o : Option O)
  | poll (t : T) (events : List E) (noWait : Bool)
  | scan (t : T)
  | decide (t : T)
  | wake (t : T)
  | clear (t : T)
  | give (o : O)
  | cancelWait (o : O)
  | change (o : O) (met : Bool)
  | expire (t : T)
  | timeout (t : T)
deriving DecidableEq

/-- `init` is `k_poll_event_init`, `change` whatever else changes an object's condition
(`k_sem_take`, `k_queue_get`, a reset of a signal); `expire` moves a pending thread's timeout to
the expired list and `timeout` handles it. -/
def step : Act T O E → Option (State T O E)
  | .init e o => some { s with
      obj := update s.obj e o
      poller := update s.poller e none
      eventState := update s.eventState e stateNotReady }
  | .poll t events noWait => some { s with
      polling := update s.polling t true
      pc := update s.pc t (.scan events 0 0 noWait) }
  | .scan t =>
    match s.pc t with
    | .scan events ii registered noWait =>
      events[ii]?.bind (scanEvent kind prio s t events ii registered noWait)
    | _ => none
  | .decide t =>
    match s.pc t with
    | .scan events ii registered noWait =>
      if ii = events.length then some (decidePend s t events registered noWait) else none
    | _ => none
  | .wake t =>
    match s.pc t with
    | .pended events registered =>
      if s.pending t = false then some (clearNext s t (events.take registered).reverse) else none
    | _ => none
  | .clear t =>
    match s.pc t with
    | .clear left => some (clearNext s t left)
    | _ => none
  | .give o => some (give kind s o)
  | .cancelWait o => some (kQueueCancelWait s o)
  | .change o met => some { s with met := update s.met o met }
  | .expire t =>
    if s.pending t then some { s with expired := update s.expired t true } else none
  | .timeout t =>
    if s.expired t then some { s with
      expired := update s.expired t false, pending := update s.pending t false }
    else none

def Pc.events : Pc E → List E
  | .idle => []
  | .scan events _ _ _ => events
  | .pended events _ => events
  | .clear left => left

def Pc.registered : Pc E → List E
  | .idle => []
  | .scan events _ registered _ => events.take registered
  | .pended events registered => events.take registered
  | .clear left => left

def Allowed : Act T O E → Prop
  | .init e _ => ∀ t, e ∉ (s.pc t).events
  | .poll t events _ => s.pc t = .idle ∧ events ≠ [] ∧ events.Nodup ∧
      ∀ t', ∀ e ∈ events, e ∉ (s.pc t').events
  | _ => True

instance [Fintype T] (s : State T O E) (a : Act T O E) : Decidable (Allowed s a) :=
  match a with
  | .init _ _ => inferInstanceAs (Decidable (∀ _, _))
  | .poll _ _ _ => inferInstanceAs (Decidable (_ ∧ _ ∧ _ ∧ _))
  | .scan _ | .decide _ | .wake _ | .clear _ | .give _ | .cancelWait _ | .change _ _ | .expire _
  | .timeout _ => inferInstanceAs (Decidable True)

def clearing : Act T O E → Option (T × List E)
  | .decide t =>
    match s.pc t with
    | .scan events ii registered _ =>
      if ii = events.length ∧ s.polling t = false then
        some (t, (events.take registered).reverse)
      else none
    | _ => none
  | .wake t =>
    match s.pc t with
    | .pended events registered =>
      if s.pending t = false then some (t, (events.take registered).reverse) else none
    | _ => none
  | .clear t =>
    match s.pc t with
    | .clear left => some (t, left)
    | _ => none
  | _ => none

def clears (a : Act T O E) : Option E := (clearing s a).bind (·.2.head?)

/-- An event that was signalled before it is cleared has been unlinked already: the neighbours it
recorded are still next to each other. -/
def ClearsInPlace (a : Act T O E) : Prop :=
  ∀ e ∈ clears s a, s.obj e = none ∨ s.signalled e = false ∨
    s.links.next (s.links.prev (.event e)) = s.links.next (.event e) ∧
      s.links.prev (s.links.next (.event e)) = s.links.prev (.event e)

instance (s : State T O E) (a : Act T O E) : Decidable (ClearsInPlace s a) :=
  inferInstanceAs (Decidable (∀ e ∈ clears s a, _ ∨ _ ∨ _ ∧ _))

def initState (links : Links (Node O E)) (obj : E → Option O) (met : O → Bool) : State T O E where
  links :=
    let self := fun (f : Node O E → Node O E) n => match n with
      | .obj o => .obj o
      | n => f n
    ⟨self links.next, self links.prev⟩
  obj := obj
  poller := fun _ => none
  eventState := fun _ => stateNotReady
  polling := fun _ => false
  pending := fun _ => false
  expired := fun _ => false
  ret := fun _ => 0
  met := met
  pc := fun _ => .idle
  signalled := fun _ => false
  regs := 0

end

open List Option

def nodesOf (lists : O → List E) (o : O) : List (Node O E) := (lists o).map .event

/-- The calls in progress have events of their own, and a thread that still polls has registered
every event it has come to. -/
structure Calls (s : State T O E) : Prop where
  apart : ∀ t t' e, e ∈ (s.pc t).events → e ∈ (s.pc t').events → t = t'
  nodup : ∀ t, (s.pc t).events.Nodup
  scan : ∀ t events ii n noWait, s.pc t = .scan events ii n noWait →
    n ≤ ii ∧ ii ≤ events.length ∧ (noWait = true → n = 0) ∧
      (noWait = false → s.polling t = true → n = ii)

structure Inv (lists : O → List E) (s : State T O E) : Prop where
  calls : Calls s
  rings : s.links.Rings Set.univ Node.obj (nodesOf lists)
  mem : ∀ o e, e ∈ lists o ↔ s.obj e = some o ∧ s.signalled e = false ∧ ∃ t, e ∈ (s.pc t).registered
  poller : ∀ t e, e ∈ (s.pc t).registered → s.signalled e = false → s.poller e = some t
  stale : ∀ t e o, e ∈ (s.pc t).registered → s.signalled e = true → s.obj e = some o →
    s.links.prev (.event e) = .obj o
  regs : ∀ o, (lists o).length ≤ s.regs

section

variable {s r : State T O E} {lists : O → List E} {t : T} {o : O} {e : E} {links : Links (Node O E)}
  {events : List E}

theorem Pc.registered_subset (p : Pc E) : p.registered ⊆ p.events := by
  cases p with
  | idle | clear => exact fun _ h => h
  | scan events ii r noWait => exact take_subset _ _
  | pended events r => exact take_subset _ _

theorem nodesOf_update [DecidableEq O] (o : O) (xs : List E) : nodesOf (update lists o xs) =
      update (nodesOf lists) o (xs.map .event) := by
  funext p
  by_cases hp : p = o
  · subst hp
    simp [nodesOf]
  · simp [nodesOf, hp]

theorem event_not_mem (he : ∀ o, e ∉ lists o) :
    ∀ o ∈ Set.univ, Node.event e ∉ Node.obj o :: nodesOf lists o := by
  intro o _
  simpa [nodesOf] using he o

theorem Calls.move [DecidableEq T] (h : Calls s) {p : Pc E} (hpc : r.pc = update s.pc t p)
    (hev : ∀ t', t' ≠ t → ∀ e ∈ p.events, e ∉ (s.pc t').events) (hnd : p.events.Nodup)
    (hscan : ∀ events ii n noWait, p = .scan events ii n noWait →
      n ≤ ii ∧ ii ≤ events.length ∧ (noWait = true → n = 0) ∧
        (noWait = false → r.polling t = true → n = ii))
    (hpoll : ∀ t', t' ≠ t → r.polling t' = true → s.polling t' = true) : Calls r := by
  have ht : r.pc t = p := by rw [hpc, update_self]
  have hne : ∀ t', t' ≠ t → r.pc t' = s.pc t' := fun t' h' => by rw [hpc, update_of_ne h']
  refine ⟨?_, ?_, ?_⟩
  · intro t₁ t₂ e h₁ h₂
    by_cases e₁ : t₁ = t <;> by_cases e₂ : t₂ = t
    · rw [e₁, e₂]
    · rw [e₁, ht] at h₁
      rw [hne t₂ e₂] at h₂
      exact absurd h₂ (hev t₂ e₂ e h₁)
    · rw [e₂, ht] at h₂
      rw [hne t₁ e₁] at h₁
      exact absurd h₁ (hev t₁ e₁ e h₂)
    · rw [hne t₁ e₁] at h₁
      rw [hne t₂ e₂] at h₂
      exact h.apart t₁ t₂ e h₁ h₂
  · intro t'
    by_cases htt : t' = t
    · rw [htt, ht]
      exact hnd
    · rw [hne t' htt]
      exact h.nodup t'
  · intro t' events ii n noWait hs
    by_cases htt : t' = t
    · subst htt
      exact hscan events ii n noWait (ht ▸ hs)
    · rw [hne t' htt] at hs
      obtain ⟨h1, h2, h3, h4⟩ := h.scan t' events ii n noWait hs
      exact ⟨h1, h2, h3, fun hw hp => h4 hw (hpoll t' htt hp)⟩

theorem Calls.same (h : Calls s) (hpc : r.pc = s.pc)
    (hpoll : ∀ t, r.polling t = true → s.polling t = true) : Calls r := by
  refine ⟨by rw [hpc]; exact h.apart, by rw [hpc]; exact h.nodup, ?_⟩
  intro t events ii n noWait hs
  obtain ⟨h1, h2, h3, h4⟩ := h.scan t events ii n noWait (hpc ▸ hs)
  exact ⟨h1, h2, h3, fun hw hp => h4 hw (hpoll t hp)⟩

theorem Calls.events_apart (h : Calls s) {xs : List E} (hx : xs ⊆ (s.pc t).events) :
    ∀ t', t' ≠ t → ∀ e ∈ xs, e ∉ (s.pc t').events :=
  fun t' ht e he he' => ht (h.apart t' t e he' (hx he))

theorem Calls.not_registered (h : Calls s) {ii n : Nat} {noWait : Bool}
    (hpc : s.pc t = .scan events ii n noWait) (he : events[ii]? = some e) (t' : T) :
    e ∉ (s.pc t').registered := by
  intro hm
  obtain ⟨hn, -⟩ := h.scan t events ii n noWait hpc
  have hev : (s.pc t).events = events := by rw [hpc]; rfl
  obtain rfl : t' = t := by
    refine h.apart t' t e (Pc.registered_subset _ hm) ?_
    rw [hev]
    exact mem_of_getElem? he
  have hs := (hev ▸ h.nodup t').sublist (take_sublist (ii + 1) events)
  rw [take_add_one, he, nodup_append] at hs
  rw [hpc] at hm
  exact hs.2.2 e (take_subset_take_left _ hn hm) e (by simp) rfl

theorem Inv.not_listed (h : Inv lists s) (he : ∀ t, e ∉ (s.pc t).registered) (o : O) :
    e ∉ lists o := by
  intro hm
  obtain ⟨-, -, t, ht⟩ := (h.mem o e).mp hm
  exact he t ht

variable [DecidableEq O] [DecidableEq E] {prio : T → Int}

theorem Inv.removed (h : Inv lists s) {u v : List E} (hx : lists o = u ++ e :: v) :
    (sysDlistRemove s.links (.event e)).Rings Set.univ Node.obj
        (nodesOf (update lists o (u ++ v))) ∧
      (∀ p x, x ≠ e → (x ∈ update lists o (u ++ v) p ↔ x ∈ lists p)) ∧
      (∀ p, e ∉ update lists o (u ++ v) p) ∧
      (∀ x, x ∉ v → (sysDlistRemove s.links (.event e)).prev (.event x) = s.links.prev (.event x)) ∧
      ∀ p, (update lists o (u ++ v) p).length ≤ s.regs := by
  have hring : s.links.IsRing (.obj o) (u.map .event ++ .event e :: v.map .event) := by
    simpa [nodesOf, hx] using h.rings.ring o (Set.mem_univ o)
  refine ⟨?_, ?_, ?_, ?_, ?_⟩
  · rw [nodesOf_update, map_append]
    exact sysDlistRemove_rings h.rings (Set.mem_univ o) (by simp [nodesOf, hx])
  · intro p x hxe
    by_cases hp : p = o
    · subst hp
      simp [hx, hxe]
    · rw [update_of_ne hp]
  · intro p
    by_cases hp : p = o
    · subst hp
      have hnd := hring.nodup
      rw [← map_cons, ← map_append] at hnd
      have := (perm_middle.nodup_iff.mp hnd.of_map)
      simpa using this.notMem
    · rw [update_of_ne hp]
      intro hm
      have h1 := ((h.mem p e).mp hm).1
      have h2 := ((h.mem o e).mp (by simp [hx])).1
      exact hp (some.inj (h1.symm.trans h2))
  · intro x hxv
    rw [sysDlistRemove_eq]
    refine Links.unlink_prev_of_ne fun heq => hxv ?_
    have := mem_of_mem_head? (hring.next_mem.trans (congrArg some heq.symm))
    simpa using this
  · intro p
    by_cases hp : p = o
    · subst hp
      have := h.regs p
      simp only [hx, length_append, length_cons] at this
      simp only [update_self, length_append]
      omega
    · rw [update_of_ne hp]
      exact h.regs p

variable [DecidableEq T]

structure Added (lists : O → List E) (s : State T O E) (o : O) (e : E)
    (links : Links (Node O E)) : Prop where
  rings : ∃ u v, lists o = u ++ v ∧
    links.Rings Set.univ Node.obj (nodesOf (update lists o (u ++ e :: v)))
  prev : ∀ x, x ≠ e → x ∉ lists o → links.prev (.event x) = s.links.prev (.event x)

section

omit [DecidableEq T]

theorem added_append (hr : s.links.Rings Set.univ Node.obj (nodesOf lists))
    (he : ∀ o, e ∉ lists o) : Added lists s o e (sysDlistAppend s.links (.obj o) (.event e)) := by
  refine ⟨⟨lists o, [], by simp, ?_⟩, ?_⟩
  · rw [nodesOf_update, map_append]
    exact sysDlistAppend_rings hr (Set.mem_univ o) (event_not_mem he)
  · intro x hx _
    exact Links.link_prev_of_ne (by simpa using hx) (by simp)

theorem addLoop_spec (prio : T → Int) (t : T) {u v : List E} {n : Nat} (hf : v.length ≤ n)
    (hr : s.links.Rings Set.univ Node.obj (nodesOf lists)) (hx : lists o = u ++ v)
    (he : ∀ o, e ∉ lists o) (hp : ∀ p ∈ lists o, ∃ t, s.poller p = some t) :
    ∃ links', addLoop prio s o e t n (v.head?.map .event) = some links' ∧
      Added lists s o e links' := by
  induction v generalizing u n with
  | nil =>
    refine ⟨_, ?_, added_append hr he⟩
    cases n <;> rfl
  | cons p v ih =>
    obtain ⟨n, rfl⟩ : ∃ f, n = f + 1 := ⟨n - 1, by simp at hf; omega⟩
    obtain ⟨tp, htp⟩ := hp p (by simp [hx])
    have hring : s.links.IsRing (.obj o) (u.map .event ++ .event p :: v.map .event) := by
      simpa [nodesOf, hx] using hr.ring o (Set.mem_univ o)
    have hep : e ≠ p := fun heq => he o (by simp [hx, heq])
    simp only [head?_cons, map_some, addLoop, htp, bind_eq_bind, bind_some]
    by_cases hlt : prio t < prio tp
    · rw [if_pos hlt]
      refine ⟨_, rfl, ⟨u, p :: v, hx, ?_⟩, ?_⟩
      · rw [nodesOf_update]
        have := sysDlistInsertBefore_rings hr (Set.mem_univ o)
          (u := u.map .event) (b := .event p) (v := v.map .event) (by simp [nodesOf, hx])
          (event_not_mem he)
        simpa using this
      · intro x hxe hxo
        refine Links.link_prev_of_ne (by simpa using hxe) ?_
        rintro ⟨⟩
        exact hxo (by simp [hx])
    · rw [if_neg hlt, sysDlistPeekNext_ring hring]
      have := ih (u := u ++ [p]) (n := n) (by simpa using hf) (by simp [hx])
      simpa using this

theorem addEvent_spec (prio : T → Int) (t : T) (hr : s.links.Rings Set.univ Node.obj (nodesOf lists))
    (he : ∀ o, e ∉ lists o) (hp : ∀ p ∈ lists o, ∃ t, s.poller p = some t)
    (hlen : (lists o).length ≤ s.regs) :
    ∃ links', addEvent prio s o e t = some links' ∧ Added lists s o e links' := by
  have hring := hr.ring o (Set.mem_univ o)
  have hhead : sysDlistPeekHead s.links (.obj o) = (lists o).head?.map .event := by
    simpa [nodesOf] using sysDlistPeekHead_ring hring
  have htail : sysDlistPeekTail s.links (.obj o) = (lists o).getLast?.map .event := by
    simpa [nodesOf] using sysDlistPeekTail_ring hring
  have hloop := addLoop_spec prio t (u := []) hlen hr rfl he hp
  rw [addEvent, htail, hhead]
  cases hlast : (lists o).getLast? with
  | none => exact ⟨_, rfl, added_append hr he⟩
  | some p =>
    obtain ⟨tp, htp⟩ := hp p (mem_of_mem_getLast? hlast)
    simp only [map_some, htp, bind_eq_bind, bind_some]
    by_cases hlt : prio tp < prio t
    · rw [if_pos hlt]
      exact ⟨_, rfl, added_append hr he⟩
    · rw [if_neg hlt]
      exact hloop

theorem Inv.registerEvent (h : Inv lists s) (prio : T → Int) (t : T) (he : ∀ o, e ∉ lists o) :
    ∃ lists' links', registerEvent prio s e t = some { s with
        links := links'
        poller := update s.poller e (some t)
        signalled := update s.signalled e false
        regs := s.regs + 1 } ∧
      links'.Rings Set.univ Node.obj (nodesOf lists') ∧
      (∀ o x, x ≠ e → (x ∈ lists' o ↔ x ∈ lists o)) ∧ (∀ o, e ∈ lists' o ↔ s.obj e = some o) ∧
      (∀ x, x ≠ e → (∀ o, x ∉ lists o) → links'.prev (.event x) = s.links.prev (.event x)) ∧
      ∀ o, (lists' o).length ≤ s.regs + 1 := by
  cases ho : s.obj e with
  | none =>
    refine ⟨lists, s.links, by simp [Poll.registerEvent, ho], h.rings, fun _ _ _ => Iff.rfl, ?_,
      fun _ _ _ => rfl, fun o => (h.regs o).trans (Nat.le_succ _)⟩
    intro o
    simp [he o]
  | some o =>
    have hp : ∀ p ∈ lists o, ∃ t, s.poller p = some t := by
      intro p hp
      obtain ⟨-, hs, t, ht⟩ := (h.mem o p).mp hp
      exact ⟨t, h.poller t p ht hs⟩
    obtain ⟨links', hadd, ⟨u, v, hx, hr⟩, hprev⟩ :=
      addEvent_spec prio t h.rings he hp (h.regs o)
    refine ⟨_, links', by simp [Poll.registerEvent, ho, hadd], hr, ?_, ?_,
      fun x hxe hxo => hprev x hxe (hxo o), ?_⟩
    · intro p x hxe
      by_cases hpo : p = o
      · subst hpo
        simp [hx, hxe]
      · rw [update_of_ne hpo]
    · intro p
      by_cases hpo : p = o
      · subst hpo
        simp
      · rw [update_of_ne hpo]
        simp [he p, Ne.symm hpo]
    · intro p
      by_cases hpo : p = o
      · subst hpo
        have := h.regs p
        simp only [hx, length_append] at this
        simp only [update_self, length_append, length_cons]
        omega
      · rw [update_of_ne hpo]
        exact (h.regs p).trans (Nat.le_succ _)

end

theorem Inv.register (h : Inv lists s) (prio : T → Int) {ii n : Nat}
    (hpc : s.pc t = .scan events ii n false) (he : events[ii]? = some e) (hp : s.polling t = true) :
    ∃ s', Poll.registerEvent prio s e t = some s' ∧ ∃ lists', Inv lists' { s' with
      pc := update s'.pc t (.scan events (ii + 1) (n + 1) false) } := by
  obtain ⟨-, hii, -, hsync⟩ := h.calls.scan t events ii n false hpc
  obtain rfl : n = ii := hsync rfl hp
  have hev : (s.pc t).events = events := by rw [hpc]; rfl
  have hlt := (List.getElem?_eq_some_iff.mp he).1
  have htake : events.take (n + 1) = events.take n ++ [e] := by
    rw [take_add_one, he]
    rfl
  have hnd := hev ▸ h.calls.nodup t
  have hnew := h.calls.not_registered hpc he
  obtain ⟨lists', _, hreg, hr, hmem, hmem_e, hprev, hlen⟩ :=
    h.registerEvent prio t (h.not_listed hnew)
  have hpcs : ∀ t' x, x ∈ (update s.pc t (.scan events (n + 1) (n + 1) false) t').registered ↔
      x ∈ (s.pc t').registered ∨ x = e ∧ t' = t := by
    intro t' x
    by_cases htt : t' = t
    · subst htt
      simp [hpc, Pc.registered, htake]
    · simp [htt]
  refine ⟨_, hreg, lists', ?_, hr, ?_, ?_, ?_, hlen⟩
  · refine h.calls.move (t := t) rfl (h.calls.events_apart (hev ▸ List.Subset.refl _)) hnd ?_
      (fun _ _ hp => hp)
    rintro _ _ _ _ ⟨⟩
    exact ⟨le_rfl, hlt, fun hw => absurd hw (by simp), fun _ _ => rfl⟩
  · intro o x
    simp only [hpcs]
    by_cases hxe : x = e
    · subst hxe
      simp [hmem_e]
    · simp [hmem o x hxe, h.mem, hxe]
  · intro t' x hx hs
    rcases (hpcs t' x).mp hx with hx | ⟨rfl, rfl⟩
    · have hxe : x ≠ e := fun heq => hnew t' (heq ▸ hx)
      simp only [update_of_ne hxe] at hs ⊢
      exact h.poller t' x hx hs
    · simp
  · intro t' x o hx hs ho
    rcases (hpcs t' x).mp hx with hx | ⟨rfl, rfl⟩
    · have hxe : x ≠ e := fun heq => hnew t' (heq ▸ hx)
      simp only [update_of_ne hxe] at hs
      rw [← h.stale t' x o hx hs ho]
      refine hprev x hxe fun p hm => ?_
      have := ((h.mem p x).mp hm).2.1
      simp [hs] at this
    · simp at hs

omit [DecidableEq O] in
theorem signalPollEvent_frame (s : State T O E) (e : E) (state : BitVec 32) :
    ∃ poller eventState polling pending ret, signalPollEvent s e state =
        { s with poller, eventState, polling, pending, ret } ∧
      (∀ t, polling t = true → s.polling t = true) ∧ ∀ x, x ≠ e → poller x = s.poller x := by
  have hpoll : ∀ t t', update s.polling t false t' = true → s.polling t' = true := by
    intro t t' ht
    by_cases htt : t' = t
    · subst htt
      simp at ht
    · rwa [update_of_ne htt] at ht
  unfold signalPollEvent
  split
  · exact ⟨_, _, _, _, _, rfl, fun _ h => h, fun x hx => update_of_ne hx _ _⟩
  · rename_i t _
    dsimp only
    split_ifs
    · exact ⟨_, _, _, _, _, rfl, hpoll t, fun x hx => update_of_ne hx _ _⟩
    · exact ⟨_, _, _, _, _, rfl, hpoll t, fun _ _ => rfl⟩
    · exact ⟨_, _, _, _, _, rfl, hpoll t, fun x hx => update_of_ne hx _ _⟩
    · exact ⟨_, _, _, _, _, rfl, hpoll t, fun x hx => update_of_ne hx _ _⟩

theorem Inv.signal (h : Inv lists s) (o : O) (state : BitVec 32) :
    ∃ lists', Inv lists' (handleObjPollEvents s o state) := by
  have hring := h.rings.ring o (Set.mem_univ o)
  unfold handleObjPollEvents
  cases hx : lists o with
  | nil =>
    rw [nodesOf, hx] at hring
    rw [sysDlistGet_nil hring]
    exact ⟨lists, h⟩
  | cons e v =>
    rw [nodesOf, hx] at hring
    rw [sysDlistGet_cons hring]
    obtain ⟨hr, hmem, hmem_e, hprev, hlen⟩ := h.removed (u := []) hx
    have hev : e ∉ v := by simpa using hmem_e o
    have hoe := ((h.mem o e).mp (by simp [hx])).1
    have h₁ : Inv (update lists o v) { s with
        links := sysDlistRemove s.links (.event e)
        signalled := update s.signalled e true } := by
      refine ⟨{ h.calls with }, hr, ?_, ?_, ?_, hlen⟩
      · intro p x
        by_cases hxe : x = e
        · subst hxe
          simp only [update_self, Bool.true_eq_false, false_and, and_false, iff_false]
          exact hmem_e p
        · simp only [update_of_ne hxe]
          exact (hmem p x hxe).trans (h.mem p x)
      · intro t x ht hs
        have hxe : x ≠ e := by
          rintro rfl
          simp at hs
        simp only [update_of_ne hxe] at hs
        exact h.poller t x ht hs
      · intro t x p ht hs hp
        by_cases hxe : x = e
        · subst hxe
          obtain rfl : o = p := some.inj (hoe.symm.trans hp)
          rw [hprev x hev]
          have := Links.IsRing.prev_mem (u := []) (n := Node.event x) hring
          simpa using this.symm
        · simp only [update_of_ne hxe] at hs
          rw [hprev x]
          · exact h.stale t x p ht hs hp
          · intro hm
            have := ((h.mem o x).mp (by simp [hx, hm])).2.1
            simp [hs] at this
    obtain ⟨_, _, _, _, _, hsig, hpoll, hpoller⟩ := signalPollEvent_frame { s with
        links := sysDlistRemove s.links (.event e)
        signalled := update s.signalled e true } e state
    dsimp only
    rw [hsig]
    refine ⟨_, { h₁ with calls := h₁.calls.same rfl hpoll, poller := fun t x ht hs => ?_ }⟩
    refine (hpoller x ?_).trans (h₁.poller t x ht hs)
    rintro rfl
    simp at hs

def Listed (s : State T O E) : Prop :=
  ∃ lists : O → List E, (∀ o, s.links.IsRing (.obj o) (nodesOf lists o)) ∧
    ∀ o e, e ∈ lists o ↔ s.obj e = some o ∧ s.signalled e = false ∧ ∃ t, e ∈ (s.pc t).registered

structure Clearing (s : State T O E) (t : T) (e : E) (left : List E) : Prop where
  nodup : (e :: left).Nodup
  registered : ∀ x, x ∈ (s.pc t).registered ↔ x ∈ e :: left

variable {left : List E}

omit [DecidableEq O] [DecidableEq E] in
theorem Inv.registered_clear (h : Inv lists s) (hc : Clearing s t e left) :
    ∀ t' x, x ∈ (update s.pc t (.clear left) t').registered ↔ x ∈ (s.pc t').registered ∧ x ≠ e := by
  intro t' x
  by_cases htt : t' = t
  · subst htt
    rw [update_self, hc.registered]
    have := hc.nodup.notMem
    constructor
    · intro hx
      exact ⟨mem_cons_of_mem e hx, ne_of_mem_of_not_mem hx this⟩
    · rintro ⟨hx, hne⟩
      exact (mem_cons.mp hx).resolve_left hne
  · rw [update_of_ne htt]
    refine ⟨fun hx => ⟨hx, ?_⟩, And.left⟩
    rintro rfl
    have he : x ∈ (s.pc t).registered := (hc.registered x).mpr (by simp)
    exact htt (h.calls.apart t' t x (Pc.registered_subset _ hx) (Pc.registered_subset _ he))

theorem Inv.clear (h : Inv lists s) (hc : Clearing s t e left)
    (hok : s.obj e = none ∨ s.signalled e = false ∨
      s.links.Adj (s.links.prev (.event e)) (s.links.next (.event e))) :
    ∃ lists', Inv lists' (clearNext s t (e :: left)) := by
  have hregs := h.registered_clear hc
  have het : e ∈ (s.pc t).registered := (hc.registered e).mpr (by simp)
  have hcalls : ∀ links', Calls { s with
      links := links'
      poller := update s.poller e none
      pc := update s.pc t (.clear left) } := by
    intro links'
    have hsub : left ⊆ (s.pc t).events := fun x hx =>
      Pc.registered_subset _ ((hc.registered x).mpr (mem_cons_of_mem e hx))
    exact h.calls.move (p := .clear left) rfl (h.calls.events_apart hsub)
      hc.nodup.of_cons (fun _ _ _ _ hf => by cases hf) (fun _ _ hp => hp)
  have hpoller : ∀ t' x, x ∈ (s.pc t').registered ∧ x ≠ e → s.signalled x = false →
      update s.poller e none x = some t' := by
    rintro t' x ⟨hx, hne⟩ hs
    rw [update_of_ne hne]
    exact h.poller t' x hx hs
  by_cases hlisted : ∃ o, e ∈ lists o
  · obtain ⟨o, ho⟩ := hlisted
    obtain ⟨u, v, hx⟩ := append_of_mem ho
    obtain ⟨hr, hmem, hmem_e, hprev, hlen⟩ := h.removed hx
    have hobj := ((h.mem o e).mp ho).1
    simp only [clearNext, clearEventRegistration, hobj]
    refine ⟨_, hcalls _, hr, ?_, ?_, ?_, hlen⟩
    · intro p x
      simp only [hregs]
      by_cases hxe : x = e
      · subst hxe
        simp [hmem_e]
      · simp [hmem p x hxe, h.mem, hxe]
    · intro t' x hx hs
      exact hpoller t' x ((hregs t' x).mp hx) hs
    · intro t' x p hx hs hp
      obtain ⟨hx, hne⟩ := (hregs t' x).mp hx
      rw [hprev x, h.stale t' x p hx hs hp]
      intro hm
      have := ((h.mem o x).mp (by simp_all)).2.1
      simp_all
  · push Not at hlisted
    have hlinks : ∀ o, s.obj e = some o → sysDlistRemove s.links (.event e) = s.links := by
      intro o ho
      rcases hok with hn | hs | hadj
      · simp [ho] at hn
      · exact absurd ((h.mem o e).mpr ⟨ho, hs, t, het⟩) (hlisted o)
      · exact sysDlistRemove_eq_self hadj
    have heq : clearNext s t (e :: left) = { s with
        poller := update s.poller e none
        pc := update s.pc t (.clear left) } := by
      cases ho : s.obj e with
      | none => simp [clearNext, clearEventRegistration, ho]
      | some o => simp [clearNext, clearEventRegistration, ho, hlinks o ho]
    rw [heq]
    refine ⟨lists, hcalls _, h.rings, ?_, ?_, ?_, h.regs⟩
    · intro p x
      simp only [hregs]
      by_cases hxe : x = e
      · subst hxe
        simp [hlisted]
      · simp [h.mem, hxe]
    · intro t' x hx hs
      exact hpoller t' x ((hregs t' x).mp hx) hs
    · intro t' x p hx hs hp
      exact h.stale t' x p ((hregs t' x).mp hx).1 hs hp

theorem Inv.not_listed_clear (h : Inv lists s) (hc : Clearing s t e left)
    (ho : s.obj e = some o) (hs : s.signalled e = true)
    (hadj : ¬ s.links.Adj (s.links.prev (.event e)) (s.links.next (.event e))) :
    ¬ Listed (clearNext s t (e :: left)) := by
  have hregs := h.registered_clear hc
  have het : e ∈ (s.pc t).registered := (hc.registered e).mpr (by simp)
  rintro ⟨ys, hring, hmem⟩
  simp only [clearNext, clearEventRegistration, ho] at hring hmem
  refine not_isRing_remove (h.rings.ring o (Set.mem_univ o)) (h.stale t e o het hs ho) hadj ?_
    (hring o)
  have hiff : ∀ x, x ∈ ys o ↔ x ∈ lists o := by
    intro x
    rw [hmem, h.mem]
    simp only [hregs]
    by_cases hxe : x = e
    · subst hxe
      simp [hs]
    · simp [hxe]
  intro n
  cases n with
  | obj p => simp [nodesOf]
  | event x => simpa [nodesOf] using hiff x

end

variable {kind : O → Kind} {prio : T → Int} {s s' : State T O E} {lists : O → List E} {t : T}
  {a : Act T O E} {xs : List E}

theorem Inv.setRet (h : Inv lists s) (ret : T → Int) : Inv lists { s with ret } :=
  { h with calls := { h.calls with } }

theorem Inv.init (links : Links (Node O E)) (obj : E → Option O) (met : O → Bool) :
    Inv (T := T) (fun _ => []) (initState links obj met) := by
  refine ⟨⟨?_, ?_, ?_⟩, ⟨?_, ?_⟩, ?_, ?_, ?_, ?_⟩
  · exact fun _ _ _ h => by cases h
  · exact fun _ => .nil
  · exact fun _ _ _ _ _ h => by cases h
  · exact fun o _ => isRing_nil_iff.mpr ⟨rfl, rfl⟩
  · intro o _ p _ hop
    simpa [nodesOf] using Ne.symm hop
  · simp [initState, Pc.registered]
  · exact fun _ _ h => by cases h
  · exact fun _ _ _ h => by cases h
  · simp

variable [DecidableEq E]

theorem Inv.initEvent (h : Inv lists s) {e : E} {o : Option O} {state : E → BitVec 32}
    (he : ∀ t, e ∉ (s.pc t).events) : Inv lists { s with
      obj := update s.obj e o
      poller := update s.poller e none
      eventState := state } := by
  have hreg : ∀ t, e ∉ (s.pc t).registered := fun t hm => he t (Pc.registered_subset _ hm)
  have hne : ∀ t x, x ∈ (s.pc t).registered → x ≠ e := by
    rintro t x hx rfl
    exact hreg t hx
  refine ⟨{ h.calls with }, h.rings, ?_, ?_, ?_, h.regs⟩
  · intro p x
    by_cases hxe : x = e
    · subst hxe
      simp [h.not_listed hreg p, hreg]
    · simp only [update_of_ne hxe]
      exact h.mem p x
  · intro t x hx hs
    simp only [update_of_ne (hne t x hx)]
    exact h.poller t x hx hs
  · intro t x p hx hs hp
    simp only [update_of_ne (hne t x hx)] at hp
    exact h.stale t x p hx hs hp

variable [DecidableEq O]

variable [DecidableEq T] {events : List E} {noWait : Bool}

def Woken (s : State T O E) (t : T) : Prop :=
  (∃ events n, s.pc t = .pended events n ∧ s.pending t = false) ∨ ∃ left, s.pc t = .clear left

section

variable (h : Inv lists s)
include h

theorem clearing_spec (hc : clearing s a = some (t, xs)) (hs : step kind prio s a = some s') :
    xs.Nodup ∧ (∀ x, x ∈ (s.pc t).registered ↔ x ∈ xs) ∧ ∃ ret, s' = clearNext { s with ret } t xs ∧
        (ret = update s.ret t 0 ∨ ret = s.ret ∧ Woken s t) := by
  have hnd := h.calls.nodup t
  cases a with
  | decide t' =>
    cases hpc : s.pc t' with
    | scan events ii n noWait =>
      simp only [clearing, hpc, step] at hc hs
      split_ifs at hc hs with h1 h2
      obtain ⟨rfl, rfl⟩ : t' = t ∧ (events.take n).reverse = xs := by simpa using hc
      rw [hpc] at hnd ⊢
      refine ⟨nodup_reverse.mpr (hnd.sublist (take_sublist _ _)), ?_, update s.ret t' 0, ?_⟩
      · simp [Pc.registered]
      · rw [← some.inj hs, decidePend, if_pos h1.2]
        exact ⟨rfl, .inl rfl⟩
    | _ => simp [clearing, hpc] at hc
  | wake t' =>
    cases hpc : s.pc t' with
    | pended events n =>
      simp only [clearing, hpc, step] at hc hs
      split_ifs at hc hs with h1
      obtain ⟨rfl, rfl⟩ : t' = t ∧ (events.take n).reverse = xs := by simpa using hc
      rw [hpc] at hnd ⊢
      refine ⟨nodup_reverse.mpr (hnd.sublist (take_sublist _ _)), ?_, s.ret,
        (some.inj hs).symm, .inr ⟨rfl, .inl ⟨events, n, hpc, h1⟩⟩⟩
      simp [Pc.registered]
    | _ => simp [clearing, hpc] at hc
  | clear t' =>
    cases hpc : s.pc t' with
    | clear left =>
      simp only [clearing, hpc, step] at hc hs
      obtain ⟨rfl, rfl⟩ : t' = t ∧ left = xs := by simpa using hc
      rw [hpc] at hnd ⊢
      exact ⟨hnd, fun _ => Iff.rfl, s.ret, (some.inj hs).symm, .inr ⟨rfl, .inr ⟨left, hpc⟩⟩⟩
    | _ => simp [clearing, hpc] at hc
  | _ => simp [clearing] at hc

omit [DecidableEq O] [DecidableEq E] in
theorem Inv.goTo {p : Pc E} {poller : E → Option T} {eventState : E → BitVec 32}
    {polling pending : T → Bool} {ret : T → Int} (hreg : p.registered = (s.pc t).registered)
    (hev : ∀ t', t' ≠ t → ∀ e ∈ p.events, e ∉ (s.pc t').events) (hnd : p.events.Nodup)
    (hscan : ∀ events ii n noWait, p = .scan events ii n noWait →
      n ≤ ii ∧ ii ≤ events.length ∧ (noWait = true → n = 0) ∧
        (noWait = false → polling t = true → n = ii))
    (hpoll : ∀ t', t' ≠ t → polling t' = true → s.polling t' = true)
    (hpoller : ∀ t e, e ∈ (s.pc t).registered → poller e = s.poller e) : Inv lists { s with
      poller, eventState, polling, pending, ret, pc := update s.pc t p } := by
  have hregs : ∀ t', (update s.pc t p t').registered = (s.pc t').registered := by
    intro t'
    by_cases htt : t' = t
    · subst htt
      rw [update_self, hreg]
    · rw [update_of_ne htt]
  refine { h with
    calls := h.calls.move rfl hev hnd hscan hpoll
    mem := by simpa only [hregs] using h.mem
    poller := fun t' e he hs => ?_
    stale := by simpa only [hregs] using h.stale }
  simp only [hregs] at he
  exact (hpoller t' e he).trans (h.poller t' e he hs)

theorem Inv.clearNext (hnd : xs.Nodup) (hreg : ∀ x, x ∈ (s.pc t).registered ↔ x ∈ xs)
    (hok : ∀ e ∈ xs.head?, s.obj e = none ∨ s.signalled e = false ∨
      s.links.Adj (s.links.prev (.event e)) (s.links.next (.event e))) :
    ∃ lists', Inv lists' (clearNext s t xs) := by
  cases xs with
  | nil =>
    have hnil : (s.pc t).registered = [] := eq_nil_iff_forall_not_mem.mpr fun x hx => by
      simpa using (hreg x).mp hx
    exact ⟨lists, h.goTo hnil.symm nofun .nil nofun (fun _ _ hp => hp) fun _ _ _ => rfl⟩
  | cons e left => exact h.clear ⟨hnd, hreg⟩ (hok e rfl)

theorem Inv.scanEvent (kind : O → Kind) (prio : T → Int) {ii n : Nat} {e : E}
    (hpc : s.pc t = .scan events ii n noWait) (he : events[ii]? = some e) :
    ∃ s', scanEvent kind prio s t events ii n noWait e = some s' ∧ ∃ lists', Inv lists' s' := by
  obtain ⟨hn, hii, hzero, hsync⟩ := h.calls.scan t events ii n noWait hpc
  have hlt : ii < events.length := (List.getElem?_eq_some_iff.mp he).1
  have hev : (s.pc t).events = events := by rw [hpc]; rfl
  have hnd := hev ▸ h.calls.nodup t
  -- a round that registers nothing: the condition is met, or the thread does not poll any more
  have hquiet : ∀ {poller eventState polling},
      (∀ t', t' ≠ t → polling t' = s.polling t') → (noWait = false → polling t = false) →
      (∀ x, x ≠ e → poller x = s.poller x) → Inv lists { s with
        poller, eventState, polling, pc := update s.pc t (.scan events (ii + 1) n noWait) } := by
    intro poller eventState polling hpolling hoff hpoller
    refine h.goTo (by rw [hpc]; rfl) (h.calls.events_apart (hev ▸ List.Subset.refl _)) hnd ?_
      (fun t' ht hp => hpolling t' ht ▸ hp) fun t' x hx => hpoller x ?_
    · rintro _ _ _ _ ⟨⟩
      refine ⟨by omega, hlt, hzero, fun hw hp => ?_⟩
      simp [hoff hw] at hp
    · rintro rfl
      exact h.calls.not_registered hpc he t' hx
  unfold Poll.scanEvent
  cases hmet : isConditionMet kind s e with
  | some state =>
    refine ⟨_, rfl, lists, hquiet ?_ ?_ ?_⟩
    · exact fun t' ht => update_of_ne ht _ _
    · exact fun _ => update_self _ _ _
    · exact fun x hx => update_of_ne hx _ _
  | none =>
    by_cases hreg : noWait = false ∧ s.polling t = true
    · obtain ⟨rfl, hp⟩ := hreg
      obtain ⟨_, hs', hi⟩ := h.register prio hpc he hp
      simp only [hp, and_self, if_true, hs']
      exact ⟨_, rfl, hi⟩
    · simp only [hreg, if_false]
      refine ⟨_, rfl, lists, hquiet (fun _ _ => rfl) ?_ (fun _ _ => rfl)⟩
      intro hw
      simpa [hw] using hreg

theorem Inv.decidePend {ii n : Nat}
    (hpc : s.pc t = .scan events ii n noWait) (hp : s.polling t = true) :
    Inv lists (decidePend s t events n noWait) := by
  obtain ⟨-, -, hzero, -⟩ := h.calls.scan t events ii n noWait hpc
  have hpoll : ∀ t', t' ≠ t → update s.polling t false t' = true → s.polling t' = true := by
    intro t' ht hf
    rwa [update_of_ne ht] at hf
  rw [Poll.decidePend, if_neg (by simp [hp])]
  dsimp only
  cases noWait with
  | true =>
    rw [if_pos rfl]
    refine h.goTo ?_ nofun .nil nofun hpoll fun _ _ _ => rfl
    rw [hpc, Pc.registered, Pc.registered, hzero rfl, take_zero]
  | false =>
    rw [if_neg (by simp)]
    have hsub : events ⊆ (s.pc t).events := by
      rw [hpc]
      exact List.Subset.refl _
    refine h.goTo ?_ (h.calls.events_apart hsub) ?_ nofun hpoll fun _ _ _ => rfl
    · rw [hpc]
      rfl
    · have := h.calls.nodup t
      rwa [hpc] at this

theorem Inv.step (ha : Allowed s a) (hok : ClearsInPlace s a)
    (hs : step kind prio s a = some s') : ∃ lists', Inv lists' s' := by
  cases hc : clearing s a with
  | some tx =>
    obtain ⟨t, _⟩ := tx
    obtain ⟨hnd, hreg, ret, rfl, -⟩ := clearing_spec h hc hs
    refine (h.setRet ret).clearNext hnd hreg fun e he => hok e ?_
    rw [clears, hc]
    exact he
  | none =>
    cases a with
    | init e o =>
      cases hs
      exact ⟨lists, h.initEvent ha⟩
    | poll t events noWait =>
      obtain ⟨hidle, -, hnd, hother⟩ := ha
      cases hs
      refine ⟨lists, h.goTo ?_ (fun t' _ => hother t') hnd ?_ ?_ fun _ _ _ => rfl⟩
      · rw [hidle]
        rfl
      · rintro _ ii n _ ⟨⟩
        exact ⟨le_rfl, Nat.zero_le _, fun _ => rfl, fun _ _ => rfl⟩
      · intro t' ht hp
        simpa [ht] using hp
    | scan t =>
      cases hpc : s.pc t with
      | scan events ii n noWait =>
        simp only [Poll.step, hpc] at hs
        obtain ⟨e, he, hs⟩ := bind_eq_some_iff.mp hs
        obtain ⟨r, hr, hi⟩ := h.scanEvent kind prio hpc he
        rw [hs] at hr
        exact some.inj hr ▸ hi
      | _ => simp [Poll.step, hpc] at hs
    | decide t =>
      cases hpc : s.pc t with
      | scan events ii n noWait =>
        simp only [Poll.step, hpc, clearing] at hs hc
        split_ifs at hs with hii
        cases hs
        have hp : s.polling t = true := by
          by_contra hp
          simp [hii, hp] at hc
        exact ⟨lists, h.decidePend hpc hp⟩
      | _ => simp [Poll.step, hpc] at hs
    | wake t =>
      cases hpc : s.pc t with
      | pended events n =>
        simp only [Poll.step, hpc, clearing] at hs hc
        split_ifs at hs hc
      | _ => simp [Poll.step, hpc] at hs
    | clear t =>
      cases hpc : s.pc t with
      | clear left => simp [clearing, hpc] at hc
      | _ => simp [Poll.step, hpc] at hs
    | give o =>
      cases hs
      have hmet : Inv lists { s with met := update s.met o true } :=
        { h with calls := { h.calls with } }
      unfold give
      cases kind o <;> exact hmet.signal o _
    | cancelWait o =>
      cases hs
      exact h.signal o _
    | change o met =>
      cases hs
      exact ⟨lists, { h with calls := { h.calls with } }⟩
    | expire t =>
      simp only [Poll.step] at hs
      split_ifs at hs
      cases hs
      exact ⟨lists, { h with calls := { h.calls with } }⟩
    | timeout t =>
      simp only [Poll.step] at hs
      split_ifs at hs
      cases hs
      exact ⟨lists, { h with calls := { h.calls with } }⟩

theorem Inv.not_listed_step (hok : ¬ ClearsInPlace s a)
    (hs : Poll.step kind prio s a = some s') : ¬ Listed s' := by
  unfold ClearsInPlace at hok
  push Not at hok
  obtain ⟨e, he, ho, hsig, hadj⟩ := hok
  obtain ⟨⟨t, xs⟩, hc, hhead⟩ := bind_eq_some_iff.mp he
  obtain ⟨hnd, hreg, ret, rfl, -⟩ := clearing_spec h hc hs
  obtain ⟨o, ho⟩ := ne_none_iff_exists'.mp ho
  cases xs with
  | nil => simp at hhead
  | cons x left =>
    obtain rfl : x = e := by simpa using hhead
    refine (h.setRet ret).not_listed_clear ⟨hnd, hreg⟩ ho (by simpa using hsig) ?_
    exact fun hf => hadj hf.1 hf.2

end

/-- In every run in which a poller that clears a signalled event finds its recorded neighbours next
to each other, every object's list holds exactly the events registered and neither signalled nor
cleared. The next step keeps this exactly when it meets the condition as well, and registering
never reads a null poller. -/
theorem poll_lists_exact (links : Links (Node O E)) (obj : E → Option O) (met : O → Bool)
    (h : GuardedRun (step kind prio) (fun s a => Allowed s a ∧ ClearsInPlace s a)
      (initState links obj met) s) :
    Listed s ∧
      (∀ a s', Allowed s a → step kind prio s a = some s' → (Listed s' ↔ ClearsInPlace s a)) ∧
      ∀ t events ii n noWait, s.pc t = .scan events ii n noWait → ii < events.length →
        (step kind prio s (.scan t)).isSome := by
  obtain ⟨lists, hi⟩ : ∃ lists, Inv lists s := by
    refine h.invariant (P := fun s => ∃ lists, Inv lists s) ?_ ⟨_, Inv.init links obj met⟩
    rintro s a s' ⟨lists, hi⟩ ⟨ha, hok⟩ hs
    exact hi.step ha hok hs
  have hlisted : ∀ {lists} {s : State T O E}, Inv lists s → Listed s :=
    fun hi => ⟨_, fun o => hi.rings.ring o (Set.mem_univ o), hi.mem⟩
  refine ⟨hlisted hi, fun a s' ha hs => ⟨fun hl => ?_, fun hok => ?_⟩, ?_⟩
  · by_contra hok
    exact hi.not_listed_step hok hs hl
  · obtain ⟨_, hi'⟩ := hi.step ha hok hs
    exact hlisted hi'
  · intro t events ii n noWait hpc hlt
    obtain ⟨s', hs', -⟩ := hi.scanEvent kind prio hpc (getElem?_eq_getElem hlt)
    simp [step, hpc, hlt, hs']

/-- Poller 1 is woken by an insertion into the queue. Before it runs, another thread takes the item
and poller 2 registers and pends. Poller 1 then clears its own registration, which empties the
list: the next insertion wakes nobody. -/
theorem cleared_registration_drops_other_poller : ∃ s₁ s₂ s₃ : State Nat Unit Nat,
      [Act.poll 1 [1] false, .scan 1, .decide 1, .give (), .change () false, .poll 2 [2] false,
        .scan 2, .decide 2].foldlM (step (fun _ => .queue) (fun _ => 0))
          (initState ⟨id, id⟩ (fun _ => some ()) (fun _ => false)) = some s₁ ∧
      s₁.links.next (.obj ()) = .event 2 ∧
      step (fun _ => .queue) (fun _ => 0) s₁ (.wake 1) = some s₂ ∧
      s₂.links.next (.obj ()) = .obj () ∧ s₂.pending 2 = true ∧ s₂.signalled 2 = false ∧
      (s₂.pc 2).registered = [2] ∧ ¬ Listed s₂ ∧
      step (fun _ => .queue) (fun _ => 0) s₂ (.give ()) = some s₃ ∧
      s₃.met () = true ∧ s₃.pending 2 = true := by
  refine ⟨_, _, _, rfl, rfl, rfl, rfl, rfl, rfl, rfl, ?_, rfl, rfl, rfl⟩
  rintro ⟨_, hring, hmem⟩
  have hnil := (sysDlistIsEmpty_iff (hring ())).mp rfl
  have h2 := (hmem () 2).mpr ⟨rfl, rfl, 2, show 2 ∈ [2] from mem_singleton.mpr rfl⟩
  rw [nodesOf, map_eq_nil_iff] at hnil
  simp [hnil] at h2

theorem poll_lists_exact_two :
    ∃ s, [Act.poll 0 [0, 1] false, .scan 0, .scan 0, .decide 0, .poll 1 [2] false, .scan 1,
        .decide 1, .give true, .wake 0, .give false, .clear 0, .clear 0].foldlM
          (step (fun b => if b then .sem else .queue) (fun _ => 0))
          (initState (T := Fin 2) ⟨id, id⟩ (fun e : Nat => if e = 2 then some true else some (e = 0))
            (fun _ => false)) = some s ∧
      Listed s := by
  obtain ⟨hl, -⟩ := poll_lists_exact (T := Fin 2) (s := _) ⟨id, id⟩
    (fun e : Nat => if e = 2 then some true else some (e = 0)) (fun _ => false)
    (GuardedRun.of_foldlM (step (fun b : Bool => if b then .sem else .queue) fun _ => 0) _
      [.poll 0 [0, 1] false, .scan 0, .scan 0, .decide 0,
      .poll 1 [2] false, .scan 1, .decide 1, .give true, .wake 0, .give false, .clear 0,
      .clear 0] rfl)
  exact ⟨_, rfl, hl⟩

end Zephyr.Poll
