import Zephyr.Dlist
import Zephyr.DeltaList

/-! The timeout queue of `timeout_q.h` and `sys_clock.c`, with the timers and delayed work items
that use it, in the build without tickless kernel. The steps are the sections that run with
interrupts locked. Inserting or aborting a timeout rewrites one neighbour's delta. -/

namespace Zephyr.Timeout

open Function

/-- The heads of `_timeout_q` and of the local list `expired`, and the timeouts. -/
inductive Node (T : Type) where
  | timeoutQ
  | expired
  | timeout (t : T)
deriving DecidableEq

/-- What a timeout's `func` is; a thread has none and is made ready. -/
inductive Kind where
  | thread
  | timer
  | work
deriving DecidableEq

/-- Where the system clock interrupt is: not running, between two rounds of the dequeuing loop,
or in an expiry function, with the `next` that the walk over `expired` has saved. -/
inductive Phase (T : Type) where
  | idle
  | dequeue
  | handler (next : Option (Node T))
deriving DecidableEq

/-- `delta` at a list head stands for the word that a head cast to a timeout has in place of
`delta_ticks_from_prev`. The last four fields only record: the tick at which each timeout is
due, the expiries not yet delivered or cancelled, the deliveries made without one, and how many
timeouts were ever queued. -/
structure Kernel (T : Type) where
  links : Links (Node T)
  delta : Node T → Int
  tickCount : Int
  period : T → Int
  status : T → Nat
  workQ : T → Bool
  pending : T → Bool
  submitted : List T
  phase : Phase T
  deadline : T → Int
  owed : T → Bool
  spurious : List T
  adds : Nat

def inactive : Int := -1

def expiredMark : Int := -2

def s32 (x : Int) : Int := x.bmod (2 ^ 32)

section

variable {T : Type} [DecidableEq T]

variable (kind : T → Kind) (k : Kernel T)

def Kernel.setDelta (n : Node T) (d : Int) : Kernel T :=
  { k with delta := update k.delta n (s32 d) }

/-- The loop of `_add_timeout` from `inQ` on; `none` when it does not end within the fuel. -/
def insertLoop (t : T) : Nat → Kernel T → Option (Node T) → Option (Kernel T)
  | _, k, none => some { k with links := sysDlistAppend k.links .timeoutQ (.timeout t) }
  | 0, _, some _ => none
  | fuel + 1, k, some inQ =>
    if k.delta (.timeout t) ≤ k.delta inQ then
      let k := k.setDelta inQ (k.delta inQ - k.delta (.timeout t))
      some { k with links := sysDlistInsertBefore k.links inQ (.timeout t) }
    else
      let k := k.setDelta (.timeout t) (k.delta (.timeout t) - k.delta inQ)
      insertLoop t fuel k (sysDlistPeekNext k.links .timeoutQ (some inQ))

variable (t : T) (ticks : Int)

def insertTimeout : Option (Kernel T) :=
  let k := k.setDelta (.timeout t) ticks
  let k := { k with deadline := update k.deadline t (k.tickCount + ticks),
                    adds := k.adds + 1 }
  insertLoop t k.adds k (sysDlistPeekHead k.links .timeoutQ)

def kWorkSubmitToQueue : Kernel T :=
  if k.pending t then k
  else { k with pending := update k.pending t true, submitted := k.submitted ++ [t] }

/-- `_handle_one_expired_timeout` up to the call of a timer's own expiry function. -/
def handleOneExpiredTimeout : Option (Kernel T) :=
  let k := k.setDelta (.timeout t) inactive
  match kind t with
  | .thread => some k
  | .timer => do
    let k ← if 0 < k.period t then insertTimeout k t (k.period t) else some k
    return { k with status := update k.status t (k.status t + 1) }
  | .work => some (kWorkSubmitToQueue k t)

def addTimeout : Option (Kernel T) :=
  if ticks = 0 then handleOneExpiredTimeout kind k t else insertTimeout k t ticks

def abortTimeout : Kernel T :=
  if k.delta (.timeout t) = inactive then k
  else
    let k :=
      if sysDlistIsTail k.links .timeoutQ (.timeout t) then k
      else match sysDlistPeekNext k.links .timeoutQ (some (.timeout t)) with
        | some next => k.setDelta next (k.delta next + k.delta (.timeout t))
        | none => k
    let k := { k with links := sysDlistRemove k.links (.timeout t),
                      owed := update k.owed t false }
    k.setDelta (.timeout t) inactive

/-- `next` as the loop over `expired` reads it, and the removal and handling of the timeout the
loop is at. A list head in that place is no timeout, and what follows is undefined. -/
def handleExpiredTimeout : Option (Node T) → Option (Kernel T)
  | none => some { k with phase := .idle }
  | some (.timeout t) => do
    let next := sysDlistPeekNext k.links .expired (some (.timeout t))
    let spurious := if k.owed t then k.spurious else t :: k.spurious
    let owed := update k.owed t false
    let links := sysDlistRemove k.links (.timeout t)
    let k ← handleOneExpiredTimeout kind { k with links, spurious, owed } t
    return { k with phase := .handler next }
  | some _ => none

/-- A round of the dequeuing loop of `handle_timeouts`, and the start of the walk over `expired`
when the loop ends. -/
def dequeueTimeout : Option (Kernel T) :=
  match sysDlistPeekHead k.links .timeoutQ with
  | some (.timeout t) =>
    if k.delta (.timeout t) = 0 then
      let links := sysDlistRemove k.links (.timeout t)
      let links := sysDlistPrepend links .expired (.timeout t)
      let owed := update k.owed t true
      some ({ k with links, owed, phase := .dequeue }.setDelta (.timeout t) expiredMark)
    else handleExpiredTimeout kind k (sysDlistPeekHead k.links .expired)
  | _ => handleExpiredTimeout kind k (sysDlistPeekHead k.links .expired)

def tickAnnounce : Option (Kernel T) :=
  let k := { k with tickCount := k.tickCount + ticks, links := sysDlistInit k.links .expired }
  match sysDlistPeekHead k.links .timeoutQ with
  | none => some k
  | some head => dequeueTimeout kind (k.setDelta head (k.delta head - ticks))

def kTimerStart (duration period : Int) : Option (Kernel T) :=
  let k := if k.delta (.timeout t) ≠ inactive then abortTimeout k t else k
  let k := { k with period := update k.period t period,
                    status := update k.status t 0 }
  addTimeout kind k t duration

def kTimerStop : Kernel T := abortTimeout k t

/-- The flag says whether the work item was cancelled, and not `-EINVAL` returned. -/
def kDelayedWorkCancel : Kernel T × Bool :=
  if k.workQ t = false then (k, false)
  else if k.pending t then
    if t ∈ k.submitted then
      ({ k with submitted := k.submitted.erase t, workQ := update k.workQ t false }, true)
    else (k, false)
  else
    let k := abortTimeout k t
    ({ k with workQ := update k.workQ t false }, true)

def kDelayedWorkSubmitToQueue : Option (Kernel T) :=
  let (k, ok) := if k.workQ t then kDelayedWorkCancel k t else (k, true)
  if ok then
    let k := { k with workQ := update k.workQ t true }
    if ticks = 0 then some (kWorkSubmitToQueue k t) else addTimeout kind k t ticks
  else some k

def workQMain : Kernel T :=
  match k.submitted with
  | [] => k
  | t :: ts => { k with submitted := ts, pending := update k.pending t false }

inductive Act (T : Type) where
  | announce (ticks : Int)
  | dequeue
  | ret
  | add (t : T) (ticks : Int)
  | abort (t : T)
  | timerStart (t : T) (duration period : Int)
  | timerStop (t : T)
  | workSubmit (t : T) (ticks : Int)
  | workCancel (t : T)
  | workNext
deriving DecidableEq

/-- A tick count that fits an `s32_t` and is not negative. -/
def Ticks (n : Int) : Prop := 0 ≤ n ∧ n < 2 ^ 31

instance (n : Int) : Decidable (Ticks n) := inferInstanceAs (Decidable (_ ∧ _))

def announceable : Bool :=
  ticks = 1 || match sysDlistPeekHead k.links .timeoutQ with
    | none => true
    | some head => ticks ≤ k.delta head

/-- The steps of the clock interrupt (`announce`, `dequeue`, and `ret` when an expiry function
returns) and the calls that others make, with what their callers guarantee. -/
def step : Act T → Option (Kernel T)
  | .announce ticks =>
    if k.phase = .idle ∧ Ticks ticks ∧ announceable k ticks then tickAnnounce kind k ticks else none
  | .dequeue => if k.phase = .dequeue then dequeueTimeout kind k else none
  | .ret =>
    match k.phase with
    | .handler next => handleExpiredTimeout kind k next
    | _ => none
  | .add t ticks =>
    if kind t ≠ .work ∧ k.delta (.timeout t) = inactive ∧ Ticks ticks then
      addTimeout kind k t ticks
    else none
  | .abort t => some (abortTimeout k t)
  | .timerStart t duration period =>
    if kind t = .timer ∧ Ticks duration ∧ Ticks period then kTimerStart kind k t duration period
    else none
  | .timerStop t => if kind t = .timer then some (kTimerStop k t) else none
  | .workSubmit t ticks =>
    if kind t = .work ∧ Ticks ticks then kDelayedWorkSubmitToQueue kind k t ticks else none
  | .workCancel t => if kind t = .work then some (kDelayedWorkCancel k t).1 else none
  | .workNext => some (workQMain k)

/-- Every timeout initialised by `_init_timeout`, and nothing queued. -/
def initKernel (links : Links (Node T)) (delta : Node T → Int) : Kernel T where
  links := sysDlistInit links .timeoutQ
  delta := fun n => match n with
    | .timeout _ => inactive
    | n => delta n
  tickCount := 0
  period := fun _ => 0
  status := fun _ => 0
  workQ := fun _ => false
  pending := fun _ => false
  submitted := []
  phase := .idle
  deadline := fun _ => 0
  owed := fun _ => false
  spurious := []
  adds := 0

end

open List

section Lists

variable {T : Type}

def anchor : Bool → Node T
  | false => .timeoutQ
  | true => .expired

def nodes (qs es : List T) : Bool → List (Node T)
  | false => qs.map .timeout
  | true => es.map .timeout

/-- `_timeout_q` holds `qs` and, while the clock interrupt is running, `expired` holds `es`. The
queued timeouts store their due times, the expired ones are marked, all others are inactive. -/
structure Lists (qs es : List T) (running : Prop) (links : Links (Node T)) (delta : Node T → Int)
    (deadline : T → Int) (now : Int) : Prop where
  rings : links.Rings {i | i = true → running} anchor (nodes qs es)
  stopped : ¬ running → es = []
  deltas : DeltaFrom (delta ∘ .timeout) deadline now qs
  near : ∀ t ∈ qs, deadline t < now + 2 ^ 31
  marked : ∀ t ∈ es, delta (.timeout t) = expiredMark
  off : ∀ t, t ∉ qs → t ∉ es → delta (.timeout t) = inactive

variable {qs qs' es u v : List T} {running : Prop} {links : Links (Node T)} {delta : Node T → Int}
  {deadline : T → Int} {now : Int} {t : T}

theorem s32_eq {x : Int} (h : -2 ^ 31 ≤ x) (h' : x < 2 ^ 31) : s32 x = x := by
  rw [s32, Int.bmod_def]
  split_ifs <;> omega

theorem nodes_update_false (qs qs' es : List T) :
    update (nodes qs es) false (qs'.map .timeout) = nodes qs' es := by
  funext i
  cases i <;> rfl

theorem nodes_update_true (qs es es' : List T) :
    update (nodes qs es) true (es'.map .timeout) = nodes qs es' := by
  funext i
  cases i <;> rfl

theorem timeout_not_mem_nodes (hq : t ∉ qs) (he : t ∉ es) (i : Bool) :
    Node.timeout t ∉ anchor i :: nodes qs es i := by
  cases i <;> simpa [anchor, nodes]

section

variable (h : Lists qs es running links delta deadline now)
include h

theorem Lists.queue_ring : links.IsRing .timeoutQ (qs.map .timeout) := h.rings.ring false (by simp)

theorem Lists.expired_ring (hr : running) :
    links.IsRing .expired (es.map .timeout) := h.rings.ring true (fun _ => hr)

theorem Lists.queue_nodup : qs.Nodup :=
  h.queue_ring.nodup.of_map

theorem Lists.expired_nodup : es.Nodup := by
  by_cases hr : running
  · exact (h.expired_ring hr).nodup.of_map
  · simp [h.stopped hr]

theorem Lists.running_of_mem (ht : t ∈ es) : running := by
  by_contra hr
  simp [h.stopped hr] at ht

theorem Lists.apart (ht : t ∈ qs) : t ∉ es := by
  intro he
  have hr := h.running_of_mem he
  have hd := h.rings.disjoint false (by simp) true (fun _ => hr) (by decide)
  have hq : Node.timeout t ∈ anchor false :: nodes qs es false := by simpa [nodes, anchor]
  exact hd hq (by simpa [nodes, anchor])

theorem Lists.delta_lt (hq : qs = u ++ t :: v) : delta (.timeout t) < 2 ^ 31 := by
  subst hq
  have hd := deltaFrom_append.mp h.deltas
  have hb := hd.1.base_le_lastDue
  have h1 := hd.2.1
  have hn := h.near t (by simp)
  simp only [comp_apply] at h1
  omega

theorem Lists.active_iff : delta (.timeout t) = inactive ↔ t ∉ qs ∧ t ∉ es := by
  constructor
  · intro hd
    refine ⟨fun hq => ?_, fun he => ?_⟩
    · have := h.deltas.nonneg t hq
      simp [hd, inactive] at this
    · have := h.marked t he
      simp [hd, inactive, expiredMark] at this
  · exact fun hd => h.off t hd.1 hd.2

theorem Lists.change {es' : List T} {links' : Links (Node T)} {delta' : Node T → Int}
    {deadline' : T → Int} (hrings : links'.Rings {i | i = true → running} anchor (nodes qs' es'))
    (hstop : ¬ running → es' = []) (hdeltas : DeltaFrom (delta' ∘ .timeout) deadline' now qs')
    (hnear : ∀ x ∈ qs', deadline' x < now + 2 ^ 31) (hq : ∀ x, x ≠ t → x ∉ qs' → x ∉ qs)
    (he : ∀ x, x ≠ t → (x ∈ es' ↔ x ∈ es))
    (hup : ∀ x, x ≠ t → x ∉ qs → delta' (.timeout x) = delta (.timeout x))
    (hmark : t ∈ es' → delta' (.timeout t) = expiredMark)
    (hoff : t ∉ qs' → t ∉ es' → delta' (.timeout t) = inactive) :
    Lists qs' es' running links' delta' deadline' now := by
  refine ⟨hrings, hstop, hdeltas, hnear, fun x hx => ?_, fun x hx hxe => ?_⟩
  · rcases eq_or_ne x t with rfl | hxt
    · exact hmark hx
    · have hxe := (he x hxt).mp hx
      rw [hup x hxt fun hxq => h.apart hxq hxe, h.marked x hxe]
  · rcases eq_or_ne x t with rfl | hxt
    · exact hoff hx hxe
    · have hxq := hq x hxt hx
      rw [hup x hxt hxq, h.off x hxq ((he x hxt).not.mp hxe)]

end

end Lists

variable {T : Type} [DecidableEq T] {qs es u v : List T} {running : Prop} {links : Links (Node T)}
  {delta : Node T → Int} {deadline : T → Int} {now : Int} {k : Kernel T} {t : T}

theorem peekNext_timeout {a : Node T} (h : links.IsRing a ((u ++ t :: v).map .timeout)) :
    sysDlistPeekNext links a (some (.timeout t)) = v.head?.map .timeout := by
  rw [map_append] at h
  rw [← head?_map]
  exact sysDlistPeekNext_ring h

theorem setDelta_delta_self (n : Node T) {d : Int} (h : -2 ^ 31 ≤ d) (h' : d < 2 ^ 31) :
    (k.setDelta n d).delta n = d := by
  simp [Kernel.setDelta, s32_eq h h']

theorem setDelta_delta_of_ne {n m : Node T} (h : m ≠ n) (d : Int) :
    (k.setDelta n d).delta m = k.delta m := by
  simp [Kernel.setDelta, h]

theorem setDelta_timeout_of_ne {x q : T} (h : x ≠ q) (d : Int) :
    (k.setDelta (.timeout q) d).delta (.timeout x) = k.delta (.timeout x) :=
  setDelta_delta_of_ne (by simpa using h) d

theorem insertLoop_spec {fuel : Nat} (hf : v.length ≤ fuel)
    (hr : k.links.Rings {i | i = true → running} anchor (nodes (u ++ v) es))
    (hd : DeltaFrom (k.delta ∘ .timeout) k.deadline k.tickCount (u ++ v))
    (hn : ∀ q ∈ u ++ v, k.deadline q < k.tickCount + 2 ^ 31)
    (htn : k.deadline t < k.tickCount + 2 ^ 31) (htq : t ∉ u ++ v) (hte : t ∉ es)
    (hdt : k.delta (.timeout t) = k.deadline t - lastDue k.deadline k.tickCount u)
    (hpos : 0 < k.delta (.timeout t)) :
    ∃ u' v' links' delta', u ++ v = u' ++ v' ∧ insertLoop t fuel k (v.head?.map .timeout) =
        some { k with links := links', delta := delta' } ∧
      links'.Rings {i | i = true → running} anchor (nodes (u' ++ t :: v') es) ∧
      DeltaFrom (delta' ∘ .timeout) k.deadline k.tickCount (u' ++ t :: v') ∧
      ∀ n, n ≠ .timeout t → (∀ q ∈ u ++ v, n ≠ .timeout q) → delta' n = k.delta n := by
  have hring : k.links.IsRing .timeoutQ ((u ++ v).map .timeout) := hr.ring false (by simp)
  have hfresh := timeout_not_mem_nodes htq hte
  induction v generalizing u k fuel with
  | nil =>
    refine ⟨u, [], sysDlistAppend k.links .timeoutQ (.timeout t), k.delta, rfl, ?_, ?_, ?_,
      fun _ _ _ => rfl⟩
    · cases fuel <;> rfl
    · have h := sysDlistAppend_rings (i := false) hr (by simp) (fun j _ => hfresh j)
      rw [← nodes_update_false (u ++ [])]
      simpa [nodes, anchor] using h
    · exact hd.insert (by omega) (by simp) hdt (by simp) (fun _ _ => rfl) (by simp)
  | cons q v ih =>
    obtain ⟨fuel, rfl⟩ : ∃ f, fuel = f + 1 := ⟨fuel - 1, by simp at hf; omega⟩
    have hnd : (u ++ q :: v).Nodup := hring.nodup.of_map
    obtain ⟨hdu, hdq, hq0, -⟩ := deltaFrom_append.mp hd
    have hbase := hdu.base_le_lastDue
    have hqn := hn q (by simp)
    simp only [comp_apply] at hdq hq0
    have hqt : q ≠ t := fun h => htq (by simp [h])
    rw [head?_cons, Option.map_some, insertLoop]
    split_ifs with hle
    · have hquv := (nodup_middle.mp hnd).notMem
      have hne := fun x (hx : x ∈ u ++ v) => ne_of_mem_of_not_mem hx hquv
      refine ⟨u, q :: v, _, _, rfl, rfl, ?_, hd.insert (by omega) ?_ ?_ ?_
        (fun x hx => setDelta_timeout_of_ne (hne x (mem_append_left _ hx)) _)
        (fun x hx => setDelta_timeout_of_ne (hne x (mem_append_right _ hx)) _), ?_⟩
      · have h := sysDlistInsertBefore_rings (i := false) (u := u.map .timeout)
          (v := v.map .timeout) (b := .timeout q) hr (by simp) (by simp [nodes])
          (fun j _ => hfresh j)
        rw [← nodes_update_false (u ++ q :: v)]
        simpa [Kernel.setDelta] using h
      · intro x hx
        obtain rfl : q = x := by simpa using hx
        omega
      · exact (setDelta_timeout_of_ne hqt.symm _).trans hdt
      · intro x hx
        obtain rfl : q = x := by simpa using hx
        rw [comp_apply, setDelta_delta_self _ (by omega) (by omega)]
        omega
      · intro n _ hnq
        exact setDelta_delta_of_ne (hnq q (by simp)) _
    · have hself := setDelta_delta_self (k := k) (.timeout t)
        (d := k.delta (.timeout t) - k.delta (.timeout q)) (by omega) (by omega)
      have hup : ∀ n, n ≠ .timeout t → (k.setDelta (.timeout t)
          (k.delta (.timeout t) - k.delta (.timeout q))).delta n = k.delta n :=
        fun n hn => setDelta_delta_of_ne hn _
      have hne : ∀ x ∈ u ++ q :: v, x ≠ t := fun x hx h => htq (h ▸ hx)
      have hnext := peekNext_timeout hring
      have happ : u ++ q :: v = (u ++ [q]) ++ v := by simp
      rw [happ] at hr hd hn htq hring hfresh hne
      dsimp only
      obtain ⟨u', v', links', delta', he, hi, hr', hd', hfr⟩ := ih (u := u ++ [q])
        (k := k.setDelta (.timeout t) (k.delta (.timeout t) - k.delta (.timeout q)))
        (show v.length ≤ fuel by simpa using hf) hr
        (hd.congr (fun x hx => hup _ (by simpa using hne x hx)) (fun _ _ => rfl)) hn htn htq
        (by rw [hself, lastDue_append]; simp only [lastDue, Kernel.setDelta]; omega)
        (by rw [hself]; omega) hring hfresh
      refine ⟨u', v', links', delta', by rw [happ, he], ?_, hr', hd', ?_⟩
      · rw [show (k.setDelta (.timeout t) _).links = k.links from rfl, hnext]
        exact hi
      · intro n hnt hnq
        rw [hfr n hnt (by rwa [← happ]), hup n hnt]

theorem Lists.leave_expired (h : Lists qs es running links delta deadline now)
    (he : es = u ++ t :: v) {delta' : Node T → Int} (hself : delta' (.timeout t) = inactive)
    (hup : ∀ x, x ≠ t → delta' (.timeout x) = delta (.timeout x)) :
    Lists qs (u ++ v) running (sysDlistRemove links (.timeout t)) delta' deadline now := by
  have hte : t ∈ es := by simp [he]
  have hr := h.running_of_mem hte
  have htq : t ∉ qs := fun hq => h.apart hq hte
  have htuv := (nodup_middle.mp (he ▸ h.expired_nodup)).notMem
  have hrem := sysDlistRemove_rings (i := true) (u := u.map .timeout) (v := v.map .timeout)
    (n := .timeout t) h.rings (fun _ => hr) (by simp [nodes, he])
  rw [← map_append, nodes_update_true] at hrem
  exact h.change hrem (absurd hr)
    (h.deltas.congr (fun x hx => hup x (ne_of_mem_of_not_mem hx htq)) (fun _ _ => rfl)) h.near
    (fun _ _ hx => hx) (fun x hx => by simp [he, hx]) (fun x hx _ => hup x hx)
    (absurd · htuv) (fun _ _ => hself)

section

variable (h : Lists qs es running k.links k.delta k.deadline k.tickCount)
include h

theorem Lists.insert
    (hq : t ∉ qs) (he : t ∉ es) {ticks : Int} (hpos : 0 < ticks) (hlt : ticks < 2 ^ 31)
    (hadds : qs.length ≤ k.adds) :
    ∃ u v links' delta', qs = u ++ v ∧ insertTimeout k t ticks = some { k with
        links := links', delta := delta', adds := k.adds + 1,
        deadline := update k.deadline t (k.tickCount + ticks) } ∧
      Lists (u ++ t :: v) es running links' delta'
        (update k.deadline t (k.tickCount + ticks)) k.tickCount := by
  have hdl : ∀ x ∈ qs, update k.deadline t (k.tickCount + ticks) x = k.deadline x :=
    fun x hx => update_of_ne (ne_of_mem_of_not_mem hx hq) _ _
  have hself := setDelta_delta_self (k := k) (.timeout t) (d := ticks) (by omega) hlt
  have hup : ∀ n, n ≠ .timeout t → (k.setDelta (.timeout t) ticks).delta n = k.delta n :=
    fun n hn => setDelta_delta_of_ne hn _
  have hd : DeltaFrom ((k.setDelta (.timeout t) ticks).delta ∘ .timeout)
      (update k.deadline t (k.tickCount + ticks)) k.tickCount qs := h.deltas.congr
    (fun x hx => hup _ (by simpa using ne_of_mem_of_not_mem hx hq)) hdl
  obtain ⟨u, v, links', delta', hqs, hi, hr, hd', hfr⟩ := insertLoop_spec (u := []) (v := qs)
    (k := { k.setDelta (.timeout t) ticks with
      deadline := update k.deadline t (k.tickCount + ticks), adds := k.adds + 1 })
    (t := t) (show qs.length ≤ k.adds + 1 by omega) h.rings hd
    (fun x hx => by
      have := h.near x hx
      simp only [hdl x hx]
      exact this)
    (by simpa [Kernel.setDelta] using hlt) hq he
    (by simpa [lastDue, Kernel.setDelta] using hself) (hself.symm ▸ hpos)
  rw [nil_append] at hqs hfr
  refine ⟨u, v, links', delta', hqs, ?_, h.change hr h.stopped hd' ?_ ?_ (fun _ _ => .rfl) ?_
    (absurd · he) fun ht => absurd (by simp) ht⟩
  · rw [insertTimeout]
    rw [show (k.setDelta (.timeout t) ticks).links = k.links from rfl,
      sysDlistPeekHead_ring h.queue_ring, head?_map]
    exact hi
  · intro x hx
    by_cases hxt : x = t
    · subst hxt
      simpa using hlt
    · have hxq : x ∈ qs := by
        rw [hqs]
        simpa [hxt] using hx
      rw [hdl x hxq]
      exact h.near x hxq
  · intro x hxt hx hxq
    exact hx (by rw [hqs] at hxq; simp at hxq ⊢; tauto)
  · intro x hxt hxq
    rw [hfr _ (by simpa using hxt) (fun q hqq => by
      simpa using (ne_of_mem_of_not_mem hqq hxq).symm), hup _ (by simpa using hxt)]

theorem Lists.abort_off (hq : t ∉ qs) (he : t ∉ es) : abortTimeout k t = k := by
  rw [abortTimeout, if_pos (h.off t hq he)]

theorem Lists.abort_queued (hq : qs = u ++ t :: v) : ∃ links' delta', abortTimeout k t =
        { k with links := links', delta := delta', owed := update k.owed t false } ∧
      Lists (u ++ v) es running links' delta' k.deadline k.tickCount := by
  have htq : t ∈ qs := by simp [hq]
  have hact : k.delta (.timeout t) ≠ inactive := fun hd => (h.active_iff.mp hd).1 htq
  have hnd := h.queue_nodup
  have hring := h.queue_ring
  have hnn := h.deltas.nonneg t htq
  have hrings := sysDlistRemove_rings (i := false) (u := u.map .timeout) (v := v.map .timeout)
    (n := .timeout t) h.rings (by simp) (by simp [nodes, hq])
  rw [← map_append, nodes_update_false] at hrings
  have hmem : ∀ x, x ∈ u ++ v → x ∈ qs ∧ x ≠ t := by
    intro x hx
    rw [hq, nodup_middle, nodup_cons] at hnd
    exact ⟨by rw [hq]; simp at hx ⊢; tauto, ne_of_mem_of_not_mem hx hnd.1⟩
  have hfinish : ∀ k' : Kernel T, k'.links = k.links →
      DeltaFrom (k'.delta ∘ .timeout) k.deadline k.tickCount (u ++ v) →
      (∀ x, x ∉ u ++ v → k'.delta (.timeout x) = k.delta (.timeout x)) →
      Lists (u ++ v) es running (sysDlistRemove k'.links (.timeout t))
        (k'.setDelta (.timeout t) inactive).delta k.deadline k.tickCount := by
    intro k' hl hd hrest
    refine h.change (hl ▸ hrings) h.stopped
      (hd.congr (fun x hx => setDelta_timeout_of_ne (hmem x hx).2 _) (fun _ _ => rfl))
      (fun x hx => h.near x (hmem x hx).1) ?_ (fun _ _ => .rfl) ?_ (absurd · (h.apart htq))
      (fun _ _ => setDelta_delta_self _ (by decide) (by decide))
    · intro x hxt hx
      rw [hq]
      simp at hx ⊢
      tauto
    · intro x hxt hxq
      rw [setDelta_timeout_of_ne hxt, hrest x (fun hx => hxq (hmem x hx).1)]
  subst hq
  rw [abortTimeout, if_neg hact]
  cases v with
  | nil =>
    have htail : sysDlistIsTail k.links .timeoutQ (.timeout t) = true := by
      rw [sysDlistIsTail_iff hring (by simp)]
      simp
    rw [if_pos htail]
    exact ⟨_, _, rfl, hfinish k rfl (h.deltas.remove (by simp) (fun _ _ => rfl) (by simp))
      (fun _ _ => rfl)⟩
  | cons q v =>
    have htail : ¬ sysDlistIsTail k.links .timeoutQ (.timeout t) = true := by
      rw [sysDlistIsTail_iff hring (by simp)]
      intro hlast
      have := mem_of_getLast? (l := (q :: v).map Node.timeout) (a := Node.timeout t)
        (by simpa using hlast)
      have hn := hnd.of_append_right.notMem
      simp at this hn
      tauto
    have hnext := peekNext_timeout hring
    have hsum : k.delta (.timeout q) + k.delta (.timeout t) < 2 ^ 31 := by
      obtain ⟨hdu, hdt, -, hdq, -⟩ := deltaFrom_append.mp h.deltas
      have hb := hdu.base_le_lastDue
      have hqn := h.near q (by simp)
      simp only [comp_apply] at hdt hdq
      omega
    have hq0 := h.deltas.nonneg q (by simp)
    simp only [comp_apply] at hq0 hnn
    have hnd' : (u ++ q :: v).Nodup := hnd.sublist (by simp)
    have hquv := (nodup_middle.mp hnd').notMem
    have hne := fun x (hx : x ∈ u ++ v) => ne_of_mem_of_not_mem hx hquv
    rw [if_neg htail, hnext]
    refine ⟨_, _, rfl, hfinish (k.setDelta (.timeout q)
      (k.delta (.timeout q) + k.delta (.timeout t))) rfl (h.deltas.remove ?_
        (fun x hx => setDelta_timeout_of_ne (hne x (mem_append_left _ hx)) _)
        (fun x hx => setDelta_timeout_of_ne (hne x (mem_append_right _ hx)) _)) ?_⟩
    · intro x hx
      obtain rfl : q = x := by simpa using hx
      exact setDelta_delta_self _ (by omega) (by omega)
    · intro x hx
      exact setDelta_timeout_of_ne (fun hxq => hx (by simp [hxq])) _

theorem Lists.abort_expired (he : es = u ++ [t]) : ∃ links' delta', abortTimeout k t =
        { k with links := links', delta := delta', owed := update k.owed t false } ∧
      Lists qs u running links' delta' k.deadline k.tickCount ∧
      ∀ x, x ≠ t → delta' (.timeout x) = k.delta (.timeout x) := by
  have hte : t ∈ es := by simp [he]
  have hrun := h.running_of_mem hte
  have htq : t ∉ qs := fun hq => h.apart hq hte
  have hact : k.delta (.timeout t) ≠ inactive := fun hd => (h.active_iff.mp hd).2 hte
  have hring := h.expired_ring hrun
  have htail : ¬ sysDlistIsTail k.links .timeoutQ (.timeout t) = true := by
    rw [sysDlistIsTail_iff h.queue_ring (by simp)]
    intro hlast
    exact htq (by simpa using mem_of_getLast? hlast)
  have hnext : sysDlistPeekNext k.links .timeoutQ (some (.timeout t)) = some .expired := by
    rw [sysDlistPeekNext_of_not_tail htail]
    exact (Links.IsRing.next_mem (u := u.map .timeout) (v := []) (by simpa [he] using hring)).symm
  have hup : ∀ x, x ≠ t → ((k.setDelta .expired
      (k.delta .expired + k.delta (.timeout t))).setDelta (.timeout t) inactive).delta (.timeout x) =
      k.delta (.timeout x) := by
    intro x hx
    rw [setDelta_timeout_of_ne hx, setDelta_delta_of_ne (by simp)]
  have hleave := h.leave_expired he (setDelta_delta_self _ (by decide) (by decide)) hup
  rw [append_nil] at hleave
  rw [abortTimeout, if_neg hact, if_neg htail, hnext]
  exact ⟨_, _, rfl, hleave, hup⟩

end

theorem Lists.dequeue (h : Lists qs es running links delta deadline now) (hq : qs = t :: v)
    (hr : running) (hd : delta (.timeout t) = 0) :
    deadline t = now ∧ Lists v (t :: es) running
      (sysDlistPrepend (sysDlistRemove links (.timeout t)) .expired (.timeout t))
      (update delta (.timeout t) expiredMark) deadline now := by
  have htv : t ∉ v := (hq ▸ h.queue_nodup).notMem
  have hte : t ∉ es := h.apart (by simp [hq])
  obtain ⟨hdt, -, hdv⟩ := hq ▸ h.deltas
  have hdue : deadline t = now := by
    simp only [comp_apply] at hdt
    omega
  have hrem := sysDlistRemove_rings (i := false) (u := []) (v := v.map .timeout)
    (n := .timeout t) h.rings (by simp) (by simp [nodes, hq])
  rw [nil_append, nodes_update_false] at hrem
  have hpre := sysDlistPrepend_rings (i := true) (n := .timeout t) hrem (fun _ => hr)
    (fun j _ => timeout_not_mem_nodes htv hte j)
  have hup : ∀ x, x ≠ t → update delta (.timeout t) expiredMark (.timeout x) =
      delta (.timeout x) := fun x hx => update_of_ne (by simpa using hx) _ _
  refine ⟨hdue, h.change ?_ (absurd hr) ?_ (fun x hx => h.near x (by simp [hq, hx]))
    (fun x hxt hx => by simp [hq, hxt, hx]) (fun x hxt => by simp [hxt])
    (fun x hxt _ => hup x hxt) (fun _ => update_self ..) fun _ ht => absurd (by simp) ht⟩
  · rw [← nodes_update_true v es]
    simpa [nodes, anchor] using hpre
  · rw [hdue] at hdv
    exact hdv.congr (fun x hx => hup x (ne_of_mem_of_not_mem hx htv)) (fun _ _ => rfl)

theorem Lists.handle (h : Lists qs es running links delta deadline now) (he : es = t :: v) :
    Lists qs v running (sysDlistRemove links (.timeout t))
      (update delta (.timeout t) inactive) deadline now :=
  h.leave_expired (u := []) he (update_self ..) fun _ hx => update_of_ne (by simpa using hx) ..

theorem rings_init_expired (h : links.Rings {i | i = true → False} anchor (nodes qs [])) :
    (sysDlistInit links .expired).Rings {i | i = true → running} anchor (nodes qs []) := by
  have hne : ∀ x ∈ anchor false :: nodes qs [] false, x ≠ Node.expired := by
    intro x hx
    rcases mem_cons.mp hx with rfl | hx
    · simp [anchor]
    · obtain ⟨t, _, rfl⟩ := mem_map.mp hx
      simp
  have hq : (sysDlistInit links .expired).IsRing .timeoutQ (nodes qs [] false) := by
    refine (h.ring false (by simp)).frame ?_ ?_ <;> intro x hx <;>
      simp [sysDlistInit, Links.setNext, Links.setPrev, hne x hx]
  have he : (sysDlistInit links .expired).IsRing .expired [] := by
    rw [isRing_nil_iff]
    simp [sysDlistInit, Links.setNext, Links.setPrev]
  refine ⟨?_, ?_⟩
  · rintro (_ | _) _
    · exact hq
    · exact he
  · rintro (_ | _) _ (_ | _) _ hij
    · simp at hij
    · intro x hx hx'
      exact hne x hx (by simpa [anchor, nodes] using hx')
    · intro x hx hx'
      exact hne x hx' (by simpa [anchor, nodes] using hx)
    · simp at hij

theorem Lists.announce (h : Lists qs [] False links delta deadline now) (running : Prop)
    (delta' : Node T → Int) {ticks : Int} (h0 : 0 ≤ ticks)
    (hhead : ∀ t ∈ qs.head?, delta' (.timeout t) = delta (.timeout t) - ticks ∧
      ticks ≤ delta (.timeout t))
    (hrest : ∀ t, t ∉ qs.head? → delta' (.timeout t) = delta (.timeout t)) :
    Lists qs [] running (sysDlistInit links .expired) delta' deadline (now + ticks) := by
  refine ⟨rings_init_expired h.rings, fun _ => rfl, ?_, ?_, by simp, ?_⟩
  · cases qs with
    | nil => trivial
    | cons t v =>
      have htv := h.queue_nodup.notMem
      have h1 := hhead t (by simp)
      have hd := h.deltas.1
      simp only [comp_apply] at hd
      refine h.deltas.rebase ?_ ?_ ?_
      · intro x hx
        obtain rfl : t = x := by simpa using hx
        omega
      · intro x hx
        obtain rfl : t = x := by simpa using hx
        rw [comp_apply]
        omega
      · intro x hx
        exact hrest x (by simpa using (ne_of_mem_of_not_mem hx htv).symm)
  · intro t ht
    have := h.near t ht
    omega
  · intro t ht hte
    rw [hrest t (fun hh => ht (mem_of_mem_head? hh))]
    exact h.off t ht hte

end Zephyr.Timeout
