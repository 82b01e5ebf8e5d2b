import Zephyr.Dlist

/-! The ready queue of `sched.c` and `ksched.h`: a list for each priority, a bitmap of the
priorities present and the cached thread to run next. Putting a thread on a queue or taking it off
keeps the three in step. -/

namespace Zephyr.ReadyQ

open Function

structure Config where
  numCoop : Nat
  numPrio : Nat

/-- The heads of the ready queues and of the wait queues, and the `k_q_node` of each thread. -/
inductive Node (T W : Type) where
  | readyQ (index : Nat)
  | waitQ (w : W)
  | thread (t : T)
deriving DecidableEq

/-- `timeoutActive` is whether `delta_ticks_from_prev` differs from `_INACTIVE`. The last two
fields only record: the threads that a caller has taken off a list and not yet put on another,
and how many threads were ever pended. -/
structure Sched (T W : Type) where
  links : Links (Node T W)
  prio : T → Int
  threadState : T → BitVec 8
  timeoutActive : T → Bool
  prioBmap : Nat → BitVec 32
  cache : T
  transit : T → Bool
  pends : Nat

def threadDummy : BitVec 8 := 0x1#8

def threadPending : BitVec 8 := 0x2#8

def threadPrestart : BitVec 8 := 0x4#8

def threadDead : BitVec 8 := 0x8#8

def threadSuspended : BitVec 8 := 0x10#8

variable {T W : Type}

section

variable (c : Config) (prio : Int)

def Config.readyQQIndex : Nat := (prio + c.numCoop).toNat

def Config.readyQPrioBmapIndex : Nat := c.readyQQIndex prio / 32

def Config.readyQPrioBit : BitVec 32 := 1#32 <<< (c.readyQQIndex prio % 32)

def findLsbSet (op : BitVec 32) : Nat :=
  match (List.range 32).find? (fun i => op.getLsbD i) with
  | some i => i + 1
  | none => 0

variable (s : Sched T W)

/-- `none` when no bit is set at all, where the source reads past the bitmaps. -/
def getHighestReadyPrio : Option Int :=
  ((List.range ((c.numPrio + 31) / 32)).find? (fun i => s.prioBmap i ≠ 0#32)).map
    (fun bitmap => ((findLsbSet (s.prioBmap bitmap) - 1 + bitmap * 32 : Nat) : Int) - c.numCoop)

def getReadyQHead : Option T :=
  (getHighestReadyPrio c s).bind fun prio =>
    match s.links.next (.readyQ (c.readyQQIndex prio)) with
    | .thread t => some t
    | _ => none

def getNextReadyThread : T := s.cache

variable (t : T)

def isThreadPreventedFromRunning : Bool :=
  s.threadState t &&& (threadPending ||| threadPrestart ||| threadDead ||| threadDummy |||
    threadSuspended) ≠ 0#8

def isThreadReady : Bool :=
  !(isThreadPreventedFromRunning s t || s.timeoutActive t)

def isThreadPending : Bool := s.threadState t &&& threadPending ≠ 0#8

def isT1HigherPrioThanT2 (t1 t2 : T) : Bool := s.prio t1 < s.prio t2

end

section

variable [DecidableEq T] [DecidableEq W]

variable (c : Config) (s : Sched T W) (t : T) (prio : Int)

def setReadyQPrioBit : Sched T W :=
  let index := c.readyQPrioBmapIndex prio
  let bmap := s.prioBmap index ||| c.readyQPrioBit prio
  { s with prioBmap := update s.prioBmap index bmap }

def clearReadyQPrioBit : Sched T W :=
  let index := c.readyQPrioBmapIndex prio
  let bmap := s.prioBmap index &&& ~~~(c.readyQPrioBit prio)
  { s with prioBmap := update s.prioBmap index bmap }

def markThread (bit : BitVec 8) : Sched T W :=
  { s with threadState := update s.threadState t (s.threadState t ||| bit) }

def unmarkThread (bit : BitVec 8) : Sched T W :=
  { s with threadState := update s.threadState t (s.threadState t &&& ~~~bit) }

def addThreadToReadyQ : Sched T W :=
  let q : Node T W := .readyQ (c.readyQQIndex (s.prio t))
  let s := setReadyQPrioBit c s (s.prio t)
  let s := { s with links := sysDlistAppend s.links q (.thread t) }
  { s with cache := if isT1HigherPrioThanT2 s t s.cache then t else s.cache }

/-- The cache is looked up again when it held the thread; `none` when there is nothing to find. -/
def reloadCache : Option (Sched T W) :=
  if s.cache = t then (getReadyQHead c s).map (fun cache => { s with cache }) else some s

def removeThreadFromReadyQ : Option (Sched T W) :=
  let q : Node T W := .readyQ (c.readyQQIndex (s.prio t))
  let s := { s with links := sysDlistRemove s.links (.thread t) }
  let s := if sysDlistIsEmpty s.links q then clearReadyQPrioBit c s (s.prio t) else s
  reloadCache c s t

def moveThreadToEndOfPrioQ : Option (Sched T W) :=
  let q : Node T W := .readyQ (c.readyQQIndex (s.prio t))
  if sysDlistIsTail s.links q (.thread t) then some s
  else
    let links := sysDlistRemove s.links (.thread t)
    reloadCache c { s with links := sysDlistAppend links q (.thread t) } t

def readyThread : Sched T W :=
  let s := unmarkThread s t threadPrestart
  if isThreadReady s t then addThreadToReadyQ c s t else s

def threadPrioritySet : Option (Sched T W) :=
  if isThreadReady s t then do
    let s ← removeThreadFromReadyQ c s t
    return addThreadToReadyQ c { s with prio := update s.prio t prio } t
  else some { s with prio := update s.prio t prio }

/-- The loop of `_pend_thread` from `pending` on; `none` when it does not end within the fuel. -/
def pendLoop (s : Sched T W) (t : T) (w : W) : Nat → Option (Node T W) → Option (Links (Node T W))
  | _, none => some (sysDlistAppend s.links (.waitQ w) (.thread t))
  | fuel + 1, some (.thread pending) =>
    if isT1HigherPrioThanT2 s t pending then
      some (sysDlistInsertBefore s.links (.thread pending) (.thread t))
    else pendLoop s t w fuel (sysDlistPeekNext s.links (.waitQ w) (some (.thread pending)))
  | _, _ => none

def pendThread (w : W) (timeout : Bool) : Option (Sched T W) := do
  let links ← pendLoop s t w s.pends (sysDlistPeekHead s.links (.waitQ w))
  let s := markThread { s with links, pends := s.pends + 1 } t threadPending
  return { s with timeoutActive := update s.timeoutActive t (timeout || s.timeoutActive t) }

def unpendThread : Sched T W :=
  unmarkThread { s with links := sysDlistRemove s.links (.thread t) } t threadPending

def kThreadSingleSuspend : Option (Sched T W) := do
  let s ← if isThreadReady s t then removeThreadFromReadyQ c s t else some s
  return markThread s t threadSuspended

def kThreadSingleResume : Sched T W :=
  let s := unmarkThread s t threadSuspended
  if isThreadReady s t then addThreadToReadyQ c s t else s

def kThreadSingleAbort : Option (Sched T W) := do
  let s ←
    if isThreadReady s t then removeThreadFromReadyQ c s t
    else
      let s := if isThreadPending s t then unpendThread s t else s
      some (if s.timeoutActive t then
        { s with timeoutActive := update s.timeoutActive t false } else s)
  return markThread s t threadDead

inductive Act (T W : Type) where
  | add (t : T)
  | remove (t : T)
  | move (t : T)
  | ready (t : T)
  | prioritySet (t : T) (prio : Int)
  | suspend (t : T)
  | resume (t : T)
  | pend (t : T) (w : W) (timeout : Bool)
  | unpend (t : T)
  | abort (t : T)
  | sleep (t : T)
  | timeout (t : T)
deriving DecidableEq

def Sched.setTransit (b : Bool) : Sched T W :=
  { s with transit := update s.transit t b }

/-- `sleep` puts a thread on the timeout queue, and `timeout` takes it off, by abort or expiry. -/
def step : Act T W → Option (Sched T W)
  | .add t => some ((addThreadToReadyQ c s t).setTransit t false)
  | .remove t => (removeThreadFromReadyQ c s t).map (·.setTransit t true)
  | .move t => moveThreadToEndOfPrioQ c s t
  | .ready t => some ((readyThread c s t).setTransit t false)
  | .prioritySet t prio => threadPrioritySet c s t prio
  | .suspend t => kThreadSingleSuspend c s t
  | .resume t => some ((kThreadSingleResume c s t).setTransit t false)
  | .pend t w timeout => (pendThread s t w timeout).map (·.setTransit t false)
  | .unpend t => some ((unpendThread s t).setTransit t true)
  | .abort t => (kThreadSingleAbort c s t).map (·.setTransit t false)
  | .sleep t => some { s with timeoutActive := update s.timeoutActive t true }
  | .timeout t =>
    some ({ s with timeoutActive := update s.timeoutActive t false }.setTransit t
      (s.transit t || !isThreadPending s t))

def Config.validPrio : Bool :=
  0 ≤ prio + c.numCoop && prio + c.numCoop + 1 < c.numPrio

/-- The states in which callers apply the steps. No step takes the idle thread off the ready
queue; a thread is put on a list only when it is on none; and a thread in transit is not
touched while it looks ready. -/
def Allowed (idle : T) (s : Sched T W) : Act T W → Prop
  | .add t => s.transit t = true ∧ isThreadReady s t = true
  | .remove t => t ≠ idle ∧ s.transit t = false ∧ isThreadReady s t = true
  | .move t => s.transit t = false ∧ isThreadReady s t = true
  | .ready t => s.transit t = true ∨ isThreadReady s t = false
  | .prioritySet t prio =>
    t ≠ idle ∧ c.validPrio prio = true ∧ (s.transit t = true → isThreadReady s t = false)
  | .suspend t => t ≠ idle ∧ (s.transit t = true → isThreadReady s t = false)
  | .resume t => s.transit t = true ∨ isThreadReady s t = false
  | .pend t _ _ =>
    t ≠ idle ∧ (s.transit t = true ∨ isThreadReady s t = false ∧ isThreadPending s t = false)
  | .unpend t => isThreadPending s t = true
  | .abort t => t ≠ idle ∧ (s.transit t = true → isThreadReady s t = false)
  | .sleep t => s.transit t = true ∨ isThreadReady s t = false
  | .timeout t => s.timeoutActive t = true

/-- Every queue initialised and every thread but the dummies set up by `_setup_new_thread`. -/
def zeroSched (main : T) (links : Links (Node T W)) (prio : T → Int)
    (dummy : T → Bool) : Sched T W where
  links :=
    let self := fun (f : Node T W → Node T W) n => match n with
      | .waitQ w => .waitQ w
      | n => f n
    (List.range c.numPrio).foldl (fun h i => sysDlistInit h (.readyQ i))
      ⟨self links.next, self links.prev⟩
  prio := prio
  threadState := fun t => if dummy t then threadDummy else threadPrestart
  timeoutActive := fun _ => false
  prioBmap := fun _ => 0#32
  cache := main
  transit := fun _ => false
  pends := 0

/-- `prepare_multithreading`: the cache is primed with the main thread, then the main and the
idle thread are started. -/
def initSched (main idle : T) (links : Links (Node T W)) (prio : T → Int)
    (dummy : T → Bool) : Sched T W :=
  let s := zeroSched c main links prio dummy
  let s := addThreadToReadyQ c (unmarkThread s main threadPrestart) main
  addThreadToReadyQ c (unmarkThread s idle threadPrestart) idle

end

open List BitVec Option

section Lists

variable {T W : Type}

def anchor : Nat ⊕ W → Node T W
  | .inl i => .readyQ i
  | .inr w => .waitQ w

def Config.queues (c : Config) (W : Type) : Set (Nat ⊕ W) := {i | ∀ n, i = .inl n → n < c.numPrio}

def nodesOf (lists : Nat ⊕ W → List T) (i : Nat ⊕ W) : List (Node T W) := (lists i).map .thread

def prioBit (bmap : Nat → BitVec 32) (i : Nat) : Bool := (bmap (i / 32)).getLsbD (i % 32)

variable {c : Config} {s : Sched T W} {lists : Nat ⊕ W → List T} {t : T} {i : Nat} {w : W}

theorem mem_queues_inl : .inl i ∈ c.queues W ↔ i < c.numPrio := by
  simp [Config.queues]

theorem mem_queues_inr : .inr w ∈ c.queues W := by
  simp [Config.queues]

theorem findLsbSet_eq {op : BitVec 32} {k : Nat} (hk : k < 32) (hb : op.getLsbD k = true)
    (hlow : ∀ j < k, op.getLsbD j = false) : findLsbSet op = k + 1 := by
  have hf : (range 32).find? (fun i => op.getLsbD i) = some k := by
    rw [find?_range_eq_some]
    exact ⟨hb, by simpa using hk, fun j hj => by simp [hlow j hj]⟩
  rw [findLsbSet, hf]

theorem getHighestReadyPrio_eq (hi : i < c.numPrio) (hb : prioBit s.prioBmap i = true)
    (hlow : ∀ j < i, prioBit s.prioBmap j = false) :
    getHighestReadyPrio c s = some ((i : Int) - c.numCoop) := by
  have hlsb : findLsbSet (s.prioBmap (i / 32)) = i % 32 + 1 := by
    refine findLsbSet_eq (by omega) hb ?_
    intro j hj
    have := hlow (i / 32 * 32 + j) (by omega)
    rwa [prioBit, show (i / 32 * 32 + j) / 32 = i / 32 by omega,
      show (i / 32 * 32 + j) % 32 = j by omega] at this
  have hword : (range ((c.numPrio + 31) / 32)).find? (fun j => s.prioBmap j ≠ 0#32) =
      some (i / 32) := by
    rw [find?_range_eq_some]
    refine ⟨?_, ?_, ?_⟩
    · rw [decide_eq_true_eq]
      intro h0
      simp [prioBit, h0] at hb
    · rw [mem_range]
      omega
    · intro j hj
      have hz : s.prioBmap j = 0#32 := by
        apply eq_of_getLsbD_eq
        intro k hk
        have := hlow (j * 32 + k) (by omega)
        rw [prioBit, show (j * 32 + k) / 32 = j by omega,
          show (j * 32 + k) % 32 = k by omega] at this
        simp [this]
      simp [hz]
  rw [getHighestReadyPrio, hword, map_some, hlsb]
  have : i % 32 + 1 - 1 + i / 32 * 32 = i := by omega
  rw [this]

structure Queues (c : Config) (idle : T) (lists : Nat ⊕ W → List T) (s : Sched T W) : Prop where
  rings : s.links.Rings (c.queues W) anchor (nodesOf lists)
  bits : ∀ i < c.numPrio, prioBit s.prioBmap i = true ↔ lists (.inl i) ≠ []
  valid : ∀ t, 0 ≤ s.prio t + c.numCoop ∧ s.prio t + c.numCoop < c.numPrio
  place : ∀ i < c.numPrio, ∀ t ∈ lists (.inl i), c.readyQQIndex (s.prio t) = i
  idle : idle ∈ lists (.inl (c.numPrio - 1))
  cache : (lists (.inl (c.readyQQIndex (s.prio s.cache)))).head? = some s.cache
  highest : ∀ i < c.readyQQIndex (s.prio s.cache), lists (.inl i) = []

variable {idle : T}

theorem readyQHead_eq (hr : s.links.Rings (c.queues W) anchor (nodesOf lists))
    (hb : ∀ i < c.numPrio, prioBit s.prioBmap i = true ↔ lists (.inl i) ≠ []) {i : Nat}
    (hi : i < c.numPrio) (hh : (lists (.inl i)).head? = some t)
    (hlow : ∀ j < i, lists (.inl j) = []) : getReadyQHead c s = some t := by
  obtain ⟨xs, hx⟩ : ∃ xs, lists (.inl i) = t :: xs := by
    cases hl : lists (.inl i) with
    | nil => simp [hl] at hh
    | cons a xs => exact ⟨xs, by simpa [hl] using hh⟩
  have hring : s.links.IsRing (.readyQ i) (.thread t :: xs.map .thread) := by
    simpa [nodesOf, hx, anchor] using hr.ring (.inl i) (mem_queues_inl.mpr hi)
  have hp := getHighestReadyPrio_eq hi ((hb i hi).mpr (by simp [hx])) (fun j hj => by
    have := (hb j (by omega)).not.mpr (by simp [hlow j hj])
    simpa using this)
  have hnext : s.links.next (.readyQ i) = .thread t := by
    simpa using hring.next_anchor.symm
  have hidx : c.readyQQIndex ((i : Int) - c.numCoop) = i := by
    simp [Config.readyQQIndex]
  rw [getReadyQHead, hp, bind_some, hidx, hnext]

abbrev Config.queueOf (c : Config) (s : Sched T W) (t : T) : Nat ⊕ W :=
  .inl (c.readyQQIndex (s.prio t))

theorem Config.readyQQIndex_mono {p q : Int} (hle : p ≤ q) :
    c.readyQQIndex p ≤ c.readyQQIndex q := by
  simp only [Config.readyQQIndex]
  omega

section

variable (h : Queues c idle lists s)
include h

theorem Queues.index_lt (t : T) : c.readyQQIndex (s.prio t) < c.numPrio := by
  have := h.valid t
  simp only [Config.readyQQIndex]
  omega

theorem Queues.index_lt_of_prio {x y : T} (hlt : s.prio x < s.prio y) :
    c.readyQQIndex (s.prio x) < c.readyQQIndex (s.prio y) := by
  have := h.valid x
  simp only [Config.readyQQIndex]
  omega

theorem Queues.head_eq_cache : getReadyQHead c s = some s.cache :=
  readyQHead_eq h.rings h.bits (h.index_lt _) h.cache h.highest

end

variable {i : Nat ⊕ W} {bmap : Nat → BitVec 32}

theorem Queues.nodup (h : Queues c idle lists s) (hi : i ∈ c.queues W) :
    (lists i).Nodup := (h.rings.ring i hi).nodup.of_map

theorem Queues.apart (h : Queues c idle lists s) {i j : Nat ⊕ W} (hi : i ∈ c.queues W)
    (hj : j ∈ c.queues W) (ht : t ∈ lists i) (ht' : t ∈ lists j) : i = j := by
  by_contra hne
  have hm : Node.thread t ∈ anchor i :: nodesOf lists i := by simp [nodesOf, ht]
  exact h.rings.disjoint i hi j hj hne hm (by simp [nodesOf, ht'])

theorem thread_not_mem (ht : ∀ i ∈ c.queues W, t ∉ lists i) :
    ∀ i ∈ c.queues W, Node.thread t ∉ anchor i :: nodesOf lists i := by
  intro i hi
  have := ht i hi
  cases i <;> simpa [anchor, nodesOf]

theorem prioBit_set (i j : Nat) :
    prioBit (update bmap (i / 32) (bmap (i / 32) ||| 1#32 <<< (i % 32))) j =
      (prioBit bmap j || decide (j = i)) := by
  have hs : (1#32 <<< (i % 32)).getLsbD (j % 32) = decide (j % 32 = i % 32) := by
    grind
  by_cases hw : j / 32 = i / 32
  · have he : j = i ↔ j % 32 = i % 32 := by omega
    simp only [prioBit, hw, update_self, getLsbD_or, hs, he]
  · have he : j ≠ i := fun h => hw (by rw [h])
    simp [prioBit, hw, he]

theorem prioBit_clear (i j : Nat) :
    prioBit (update bmap (i / 32) (bmap (i / 32) &&& ~~~(1#32 <<< (i % 32)))) j =
      (prioBit bmap j && !decide (j = i)) := by
  have hs : (1#32 <<< (i % 32)).getLsbD (j % 32) = decide (j % 32 = i % 32) := by
    grind
  have hlt : j % 32 < 32 := by omega
  by_cases hw : j / 32 = i / 32
  · have he : j = i ↔ j % 32 = i % 32 := by omega
    simp only [prioBit, hw, update_self, getLsbD_and, getLsbD_not, hs, he,
      hlt, decide_true, Bool.true_and]
  · have he : j ≠ i := fun h => hw (by rw [h])
    simp [prioBit, hw, he]

end Lists

variable {T W : Type} {c : Config} {idle : T} {s : Sched T W}
  {lists : Nat ⊕ W → List T} {t : T} {r : Sched T W}

theorem Queues.cache_mem (h : Queues c idle lists s) :
    s.cache ∈ lists (.inl (c.readyQQIndex (s.prio s.cache))) := mem_of_mem_head? h.cache

variable [DecidableEq W]

theorem nodesOf_update (i : Nat ⊕ W) (xs : List T) : nodesOf (update lists i xs) =
      update (nodesOf lists) i (xs.map (Node.thread : T → Node T W)) := by
  funext j
  by_cases hj : j = i
  · subst hj
    simp [nodesOf]
  · simp [nodesOf, hj]

variable {xs : List T}

theorem Queues.setWait (h : Queues c idle lists s) {w : W} {links : Links (Node T W)}
    (hr : links.Rings (c.queues W) anchor (nodesOf (update lists (.inr w) xs))) :
    Queues c idle (update lists (.inr w) xs) { s with links } :=
  ⟨hr, by simpa using h.bits, h.valid, by simpa using h.place, by simpa using h.idle,
    by simpa using h.cache, by simpa using h.highest⟩

variable [DecidableEq T]

theorem addThreadToReadyQ_cache : (addThreadToReadyQ c s t).cache =
    if s.prio t < s.prio s.cache then t else s.cache := by
  by_cases hlt : s.prio t < s.prio s.cache <;>
    simp [addThreadToReadyQ, isT1HigherPrioThanT2, setReadyQPrioBit, hlt]

theorem add_rings (hr : s.links.Rings (c.queues W) anchor (nodesOf lists))
    (hi : c.readyQQIndex (s.prio t) < c.numPrio) (ht : ∀ i ∈ c.queues W, t ∉ lists i) :
    (addThreadToReadyQ c s t).links.Rings (c.queues W) anchor
      (nodesOf (update lists (c.queueOf s t) (lists (c.queueOf s t) ++ [t]))) := by
  have happ := sysDlistAppend_rings hr (mem_queues_inl.mpr hi) (thread_not_mem ht)
  rw [nodesOf_update, map_append]
  exact happ

theorem add_bits (hb : ∀ i < c.numPrio, prioBit s.prioBmap i = true ↔ lists (.inl i) ≠ []) :
    ∀ i < c.numPrio, prioBit (addThreadToReadyQ c s t).prioBmap i = true ↔
      update lists (c.queueOf s t) (lists (c.queueOf s t) ++ [t]) (.inl i) ≠ [] := by
  intro j hj
  have hs : prioBit (addThreadToReadyQ c s t).prioBmap j =
      (prioBit s.prioBmap j || decide (j = c.readyQQIndex (s.prio t))) := prioBit_set _ j
  rw [hs, Bool.or_eq_true, hb j hj]
  by_cases hji : j = c.readyQQIndex (s.prio t)
  · subst hji
    simp
  · simp [hji]

theorem Queues.add (h : Queues c idle lists s) (ht : ∀ i ∈ c.queues W, t ∉ lists i) :
    Queues c idle (update lists (c.queueOf s t) (lists (c.queueOf s t) ++ [t]))
      (addThreadToReadyQ c s t) := by
  have hi := h.index_lt t
  have hrings := add_rings h.rings hi ht
  have hbits := add_bits (t := t) h.bits
  unfold Config.queueOf at hrings hbits ⊢
  generalize hidx : c.readyQQIndex (s.prio t) = i at hi hrings hbits ⊢
  have hother : ∀ j, j ≠ i → update lists (.inl i) (lists (.inl i) ++ [t]) (.inl j) =
      lists (.inl j) := fun j hj => update_of_ne (by simpa using hj) _ _
  refine ⟨hrings, hbits, h.valid, ?_, ?_, ?_, ?_⟩
  · intro j hj x hx
    by_cases hji : j = i
    · subst hji
      rw [update_self, mem_append, mem_singleton] at hx
      rcases hx with hx | rfl
      · exact h.place j hj x hx
      · exact hidx
    · rw [hother j hji] at hx
      exact h.place j hj x hx
  · by_cases hji : c.numPrio - 1 = i
    · rw [hji, update_self]
      exact mem_append_left _ (hji ▸ h.idle)
    · rw [hother _ hji]
      exact h.idle
  · by_cases hlt : s.prio t < s.prio s.cache
    · have hc : (addThreadToReadyQ c s t).cache = t := by
        rw [addThreadToReadyQ_cache, if_pos hlt]
      have hil : i < c.readyQQIndex (s.prio s.cache) := by
        rw [← hidx]
        exact h.index_lt_of_prio hlt
      rw [hc, show (addThreadToReadyQ c s t).prio = s.prio from rfl, hidx, update_self,
        h.highest i hil]
      rfl
    · have hc : (addThreadToReadyQ c s t).cache = s.cache := by
        rw [addThreadToReadyQ_cache, if_neg hlt]
      rw [hc, show (addThreadToReadyQ c s t).prio = s.prio from rfl]
      by_cases hji : c.readyQQIndex (s.prio s.cache) = i
      · have hh := h.cache
        rw [hji] at hh ⊢
        rw [update_self, head?_append, hh]
        rfl
      · rw [hother _ hji]
        exact h.cache
  · intro j hj
    by_cases hlt : s.prio t < s.prio s.cache
    · have hc : (addThreadToReadyQ c s t).cache = t := by
        rw [addThreadToReadyQ_cache, if_pos hlt]
      have hil := h.index_lt_of_prio hlt
      rw [hc, show (addThreadToReadyQ c s t).prio = s.prio from rfl] at hj
      rw [hother j (by omega)]
      exact h.highest j (by omega)
    · have hc : (addThreadToReadyQ c s t).cache = s.cache := by
        rw [addThreadToReadyQ_cache, if_neg hlt]
      have hil := c.readyQQIndex_mono (not_lt.mp hlt)
      rw [hc, show (addThreadToReadyQ c s t).prio = s.prio from rfl] at hj
      rw [hother j (by omega)]
      exact h.highest j hj

theorem head?_erase_of_ne {x : T} (hx : xs.head? = some x) (hne : x ≠ t) :
    (xs.erase t).head? = some x := by
  cases xs with
  | nil => simp at hx
  | cons a xs =>
    obtain rfl : a = x := by simpa using hx
    rw [erase_cons_tail (by simpa using hne), head?_cons]

omit [DecidableEq W] in
theorem Queues.reload {s : Sched T W} {x : T}
    (rings : s.links.Rings (c.queues W) anchor (nodesOf lists))
    (bits : ∀ i < c.numPrio, prioBit s.prioBmap i = true ↔ lists (.inl i) ≠ [])
    (valid : ∀ t, 0 ≤ s.prio t + c.numCoop ∧ s.prio t + c.numCoop < c.numPrio)
    (place : ∀ i < c.numPrio, ∀ t ∈ lists (.inl i), c.readyQQIndex (s.prio t) = i)
    (hidle : idle ∈ lists (.inl (c.numPrio - 1)))
    (hcache : s.cache ≠ x → (lists (.inl (c.readyQQIndex (s.prio s.cache)))).head? = some s.cache ∧
      ∀ i < c.readyQQIndex (s.prio s.cache), lists (.inl i) = []) :
    ∃ cache, reloadCache c s x = some { s with cache } ∧ Queues c idle lists { s with cache } := by
  by_cases hx : s.cache = x
  · have hnum : c.numPrio - 1 < c.numPrio := by
      have := valid idle
      omega
    have hex : ∃ i, lists (.inl i) ≠ [] := ⟨_, ne_nil_of_mem hidle⟩
    have hi := lt_of_le_of_lt (Nat.find_min' hex (ne_nil_of_mem hidle)) hnum
    have hlow : ∀ j < Nat.find hex, lists (.inl j) = [] := fun j hj =>
      not_not.mp (Nat.find_min hex hj)
    obtain ⟨y, _, hy⟩ := exists_cons_of_ne_nil (Nat.find_spec hex)
    have hh : (lists (.inl (Nat.find hex))).head? = some y := by simp [hy]
    have hyi := place _ hi y (by simp [hy])
    refine ⟨y, ?_, rings, bits, valid, place, hidle, by simpa only [hyi] using hh, ?_⟩
    · rw [reloadCache, if_pos hx, readyQHead_eq rings bits hi hh hlow, map_some]
    · intro j hj
      exact hlow j (hyi ▸ hj)
  · obtain ⟨h1, h2⟩ := hcache hx
    exact ⟨s.cache, by rw [reloadCache, if_neg hx], rings, bits, valid, place, hidle, h1, h2⟩

section

variable (h : Queues c idle lists s)
include h

theorem Queues.setQueue {i : Nat} (hi : i < c.numPrio)
    (hprio : r.prio = s.prio) (hcache : r.cache = s.cache)
    (hr : r.links.Rings (c.queues W) anchor (nodesOf (update lists (.inl i) xs)))
    (hbit : ∀ j < c.numPrio, prioBit r.prioBmap j = true ↔
      if j = i then xs ≠ [] else prioBit s.prioBmap j = true)
    (hsub : xs ⊆ lists (.inl i)) (hidle : idle ∈ lists (.inl i) → idle ∈ xs)
    (hhead : ∀ x, x ≠ t → (lists (.inl i)).head? = some x → xs.head? = some x) :
    ∃ cache, reloadCache c r t = some { r with cache } ∧
      Queues c idle (update lists (.inl i) xs) { r with cache } := by
  have hother : ∀ j, j ≠ i → update lists (.inl i) xs (.inl j) = lists (.inl j) :=
    fun j hj => update_of_ne (by simpa using hj) _ _
  apply Queues.reload hr
  · intro j hj
    rw [hbit j hj]
    split_ifs with hji
    · subst hji
      rw [update_self]
    · rw [hother j hji]
      exact h.bits j hj
  · rw [hprio]
    exact h.valid
  · intro j hj x hx
    rw [hprio]
    by_cases hji : j = i
    · subst hji
      rw [update_self] at hx
      exact h.place j hj x (hsub hx)
    · rw [hother j hji] at hx
      exact h.place j hj x hx
  · by_cases hji : c.numPrio - 1 = i
    · rw [hji, update_self]
      exact hidle (hji ▸ h.idle)
    · rw [hother _ hji]
      exact h.idle
  · intro hne
    rw [hcache] at hne
    rw [hprio, hcache]
    constructor
    · by_cases hji : c.readyQQIndex (s.prio s.cache) = i
      · have hh := h.cache
        rw [hji] at hh ⊢
        rw [update_self]
        exact hhead _ hne hh
      · rw [hother _ hji]
        exact h.cache
    · intro j hj
      by_cases hji : j = i
      · subst hji
        rw [update_self]
        exact subset_nil.mp (h.highest j hj ▸ hsub)
      · rw [hother j hji]
        exact h.highest j hj

theorem Queues.remove_rings (hi : i ∈ c.queues W)
    (ht : t ∈ lists i) : (sysDlistRemove s.links (.thread t)).Rings (c.queues W) anchor
      (nodesOf (update lists i ((lists i).erase t))) := by
  obtain ⟨u, v, _, hx, he⟩ := exists_erase_eq ht
  rw [nodesOf_update, he, map_append]
  exact sysDlistRemove_rings h.rings hi (by simp [nodesOf, hx])

theorem Queues.remove (ht : t ∈ lists (c.queueOf s t)) (hidle : t ≠ idle) :
    ∃ links' prioBmap' cache', removeThreadFromReadyQ c s t =
        some { s with links := links', prioBmap := prioBmap', cache := cache' } ∧
      Queues c idle (update lists (c.queueOf s t) ((lists (c.queueOf s t)).erase t))
        { s with links := links', prioBmap := prioBmap', cache := cache' } := by
  have hi := h.index_lt t
  have hr := h.remove_rings (mem_queues_inl.mpr hi) ht
  have hring := hr.ring _ (mem_queues_inl.mpr hi)
  have hempty : sysDlistIsEmpty (sysDlistRemove s.links (.thread t))
      (.readyQ (c.readyQQIndex (s.prio t))) = true ↔ (lists (c.queueOf s t)).erase t = [] := by
    have he := sysDlistIsEmpty_iff hring
    simpa [nodesOf, anchor] using he
  have hhead : ∀ x, x ≠ t → (lists (c.queueOf s t)).head? = some x →
      ((lists (c.queueOf s t)).erase t).head? = some x :=
    fun x hx hh => head?_erase_of_ne hh hx
  have hsub := erase_subset (a := t) (l := lists (c.queueOf s t))
  have hkeep : idle ∈ lists (c.queueOf s t) → idle ∈ (lists (c.queueOf s t)).erase t :=
    (mem_erase_of_ne hidle.symm).mpr
  unfold removeThreadFromReadyQ
  dsimp only
  split_ifs with he
  · obtain ⟨cache, hc, hq⟩ := h.setQueue (t := t) (r := clearReadyQPrioBit c
      { s with links := sysDlistRemove s.links (.thread t) } (s.prio t)) hi rfl rfl hr
      (fun j hj => by
        have hb : prioBit (clearReadyQPrioBit c { s with
            links := sysDlistRemove s.links (.thread t) } (s.prio t)).prioBmap j =
            (prioBit s.prioBmap j && !decide (j = c.readyQQIndex (s.prio t))) := prioBit_clear _ j
        rw [hb]
        split_ifs with hji
        · simp [hji, hempty.mp he]
        · simp [hji]) hsub hkeep hhead
    exact ⟨_, _, _, hc, hq⟩
  · obtain ⟨cache, hc, hq⟩ := h.setQueue (t := t)
      (r := { s with links := sysDlistRemove s.links (.thread t) }) hi rfl rfl hr
      (fun j hj => by
        split_ifs with hji
        · have hne : lists (.inl j) ≠ [] := by
            rw [hji]
            exact ne_nil_of_mem ht
          exact ⟨fun _ => hempty.not.mp he, fun _ => (h.bits j hj).mpr hne⟩
        · exact Iff.rfl) hsub hkeep hhead
    exact ⟨_, _, _, hc, hq⟩

theorem Queues.not_mem_erase (hi : i ∈ c.queues W)
    (ht : t ∈ lists i) {j : Nat ⊕ W} (hj : j ∈ c.queues W) :
    t ∉ update lists i ((lists i).erase t) j := by
  by_cases hji : j = i
  · subst hji
    rw [update_self]
    exact fun hm => ((h.nodup hj).mem_erase_iff.mp hm).1 rfl
  · rw [update_of_ne hji]
    exact fun hm => hji (h.apart hj hi hm ht)

theorem Queues.move (ht : t ∈ lists (c.queueOf s t)) :
    ∃ xs links' cache', moveThreadToEndOfPrioQ c s t =
        some { s with links := links', cache := cache' } ∧
      (∀ x, x ∈ xs ↔ x ∈ lists (c.queueOf s t)) ∧
      Queues c idle (update lists (c.queueOf s t) xs)
        { s with links := links', cache := cache' } := by
  have hi := h.index_lt t
  unfold moveThreadToEndOfPrioQ
  unfold Config.queueOf at ht ⊢
  generalize hidx : c.readyQQIndex (s.prio t) = i at ht hi ⊢
  have hmem := mem_queues_inl (W := W).mpr hi
  dsimp only
  split_ifs with htail
  · refine ⟨lists (.inl i), s.links, s.cache, rfl, fun x => Iff.rfl, ?_⟩
    rwa [update_eq_self]
  · have hr := sysDlistAppend_rings (h.remove_rings hmem ht) hmem
      (thread_not_mem (fun j hj => h.not_mem_erase hmem ht hj))
    rw [show nodesOf (update lists (.inl i) ((lists (.inl i)).erase t)) (.inl i) ++
        [Node.thread t] = ((lists (.inl i)).erase t ++ [t]).map .thread by simp [nodesOf],
      ← nodesOf_update, update_idem] at hr
    have hxs : ∀ x, x ∈ (lists (.inl i)).erase t ++ [t] ↔ x ∈ lists (.inl i) := by
      intro x
      by_cases hx : x = t
      · simp [hx, ht]
      · simp [hx]
    obtain ⟨cache, hc, hq⟩ := h.setQueue (t := t) (r := { s with
        links := sysDlistAppend (sysDlistRemove s.links (.thread t)) (.readyQ i) (.thread t) })
      hi rfl rfl hr
      (fun j hj => by
        split_ifs with hji
        · have hne : lists (.inl j) ≠ [] := by
            rw [hji]
            exact ne_nil_of_mem ht
          exact ⟨fun _ => by simp, fun _ => (h.bits j hj).mpr hne⟩
        · exact Iff.rfl)
      (fun x hx => (hxs x).mp hx) (fun hx => (hxs idle).mpr hx)
      (fun x hx hh => by rw [head?_append, head?_erase_of_ne hh hx]; rfl)
    exact ⟨_, _, cache, hc, hxs, hq⟩

omit [DecidableEq W] in
theorem Queues.setPrio (ht : ∀ i < c.numPrio, t ∉ lists (.inl i))
    {prio : Int} (hp : c.validPrio prio = true) :
    Queues c idle lists { s with prio := update s.prio t prio } := by
  have hup : ∀ x, x ≠ t → update s.prio t prio x = s.prio x :=
    fun x hx => update_of_ne hx _ _
  have hcache : s.cache ≠ t := ne_of_mem_of_not_mem h.cache_mem (ht _ (h.index_lt _))
  refine ⟨h.rings, h.bits, ?_, ?_, h.idle, ?_, ?_⟩
  · intro x
    by_cases hx : x = t
    · subst hx
      simp only [Config.validPrio, Bool.and_eq_true, decide_eq_true_eq] at hp
      simp only [update_self]
      omega
    · simpa only [hup x hx] using h.valid x
  · intro i hi x hx
    simpa only [hup x (ne_of_mem_of_not_mem hx (ht i hi))] using h.place i hi x hx
  · simpa only [hup _ hcache] using h.cache
  · simpa only [hup _ hcache] using h.highest

end

theorem pendLoop_spec {w : W} {u v : List T} {fuel : Nat} (hf : v.length ≤ fuel)
    (hr : s.links.Rings (c.queues W) anchor (nodesOf lists)) (hx : lists (.inr w) = u ++ v)
    (ht : ∀ i ∈ c.queues W, t ∉ lists i) :
    ∃ u' v' links', lists (.inr w) = u' ++ v' ∧
      pendLoop s t w fuel (v.head?.map .thread) = some links' ∧
      links'.Rings (c.queues W) anchor (nodesOf (update lists (.inr w) (u' ++ t :: v'))) := by
  have hfresh := thread_not_mem ht
  have hring := hr.ring (.inr w) mem_queues_inr
  induction v generalizing u fuel with
  | nil =>
    refine ⟨u, [], sysDlistAppend s.links (.waitQ w) (.thread t), hx, by cases fuel <;> rfl, ?_⟩
    have h := sysDlistAppend_rings hr (mem_queues_inr (w := w)) hfresh
    rw [nodesOf_update]
    simpa [nodesOf, hx, anchor] using h
  | cons q v ih =>
    obtain ⟨fuel, rfl⟩ : ∃ f, fuel = f + 1 := ⟨fuel - 1, by simp at hf; omega⟩
    rw [head?_cons, map_some, pendLoop]
    split_ifs with hlt
    · refine ⟨u, q :: v, _, hx, rfl, ?_⟩
      have h := sysDlistInsertBefore_rings (u := u.map .thread) (v := v.map .thread)
        (b := .thread q) hr (mem_queues_inr (w := w)) (by simp [nodesOf, hx]) hfresh
      rw [nodesOf_update]
      simpa using h
    · have hnext : sysDlistPeekNext s.links (.waitQ w) (some (.thread q)) =
          v.head?.map .thread := by
        rw [← head?_map]
        exact sysDlistPeekNext_ring (u := u.map .thread) (by simpa [nodesOf, hx, anchor] using hring)
      rw [hnext]
      exact ih (u := u ++ [q]) (by simpa using hf) (by simpa using hx)

end Zephyr.ReadyQ
