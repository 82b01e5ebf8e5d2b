import Zephyr.Fifo
import Zephyr.Ledger
import Zephyr.RingBuffer
import Zephyr.Run
import Zephyr.WaitQ

/-! `kernel/msg_q.c`. Readers and writers wait on one queue, and an expired thread stays on it until
the clock gets to it. Runs refine a bounded queue: threads that wait and have not expired are readers
of an empty buffer or writers to a full one. -/

namespace Zephyr.MsgQ

open Function

def eAgain : Int := -11

def eNoMsg : Int := -80

/-- The fields of `struct k_msgq` but for the wait queue; the pointers are offsets into the buffer. -/
structure KMsgq (A : Type) where
  msgSize : Nat
  maxMsgs : Nat
  buffer : Nat → A
  readPtr : Nat
  writePtr : Nat
  usedMsgs : Nat

variable {A T : Type}

def KMsgq.bufferEnd (q : KMsgq A) : Nat := q.maxMsgs * q.msgSize

def KMsgq.write (q : KMsgq A) (data : List A) : KMsgq A :=
  let writePtr := q.writePtr + q.msgSize
  { q with
    buffer := writeRun q.buffer q.writePtr data
    writePtr := if writePtr = q.bufferEnd then 0 else writePtr
    usedMsgs := q.usedMsgs + 1 }

def KMsgq.read (q : KMsgq A) : List A × KMsgq A :=
  let readPtr := q.readPtr + q.msgSize
  (readRun q.buffer q.readPtr q.msgSize, { q with
      readPtr := if readPtr = q.bufferEnd then 0 else readPtr
      usedMsgs := q.usedMsgs - 1 })

inductive Kind where
  | put
  | get
deriving DecidableEq

/-- A call that has pended: the bytes that `swap_data` points at, whether its timeout is on the queue
of timeouts or has expired and is not handled yet, and the value that the swap returns. -/
structure Call (A : Type) where
  kind : Kind
  swapData : List A
  timed : Bool
  expired : Bool
  ret : Int

inductive Event (A T : Type) where
  | msg (kind : Kind) (tag : Tag (Option T)) (data : List A)
  | purge
deriving DecidableEq

/-- What the call number `k` of a thread, or of the interrupts, returned. -/
structure Result (A T : Type) where
  caller : Option T
  k : Nat
  kind : Kind
  data : List A
  code : Int

structure State (A T : Type) where
  q : KMsgq A
  waitQ : List T
  prio : T → Int
  call : T → Option (Call A)
  handlingTimeouts : Bool
  made : Option T → Nat
  history : List (Event A T)
  returned : List (Result A T)

def State.tag (s : State A T) (c : Option T) : Tag (Option T) := .thread c (s.made c)

def isThreadTimeoutExpired (s : State A T) (t : T) : Bool := (s.call t).any (·.expired)

def firstToUnpend (s : State A T) : Option T :=
  findFirstThreadToUnpend s.handlingTimeouts (isThreadTimeoutExpired s) s.waitQ

section

variable [DecidableEq T]

variable (s : State A T) (t : T)

def setCall (f : Call A → Call A) : State A T :=
  { s with call := update s.call t ((s.call t).map f) }

def wake (code : Int) : State A T :=
  { setCall s t fun c => { c with ret := code, timed := false, expired := false } with
    waitQ := s.waitQ.erase t }

variable (c : Option T)

def returnCall (kind : Kind) (data : List A) (code : Int) : State A T :=
  { s with
    made := update s.made c (s.made c + 1)
    returned := s.returned ++ [⟨c, s.made c, kind, data, code⟩] }

def pend (kind : Kind) (data : List A) (timeout : Wait) : Option (State A T) :=
  c.map fun t =>
    { s with
      waitQ := pendThread s.prio t s.waitQ
      call := update s.call t (some ⟨kind, data, timeout != .forever, false, eAgain⟩) }

def swapData : List A := ((s.call t).map (·.swapData)).getD []

def kMsgqPut (data : List A) (timeout : Wait) : Option (State A T) :=
  if s.q.usedMsgs < s.q.maxMsgs then
    match firstToUnpend s with
    | some pending =>
      let s := { s with
        history := s.history ++ [.msg .put (s.tag c) data] ++
          [.msg .get (s.tag (some pending)) data] }
      let s := wake (setCall s pending fun c => { c with swapData := data }) pending 0
      some (returnCall s c .put data 0)
    | none =>
      let s := { s with q := s.q.write data, history := s.history ++ [.msg .put (s.tag c) data] }
      some (returnCall s c .put data 0)
  else if timeout = .noWait then some (returnCall s c .put data eNoMsg)
  else pend s c .put data timeout

def kMsgqGet (data : List A) (timeout : Wait) : Option (State A T) :=
  if 0 < s.q.usedMsgs then
    let (message, q) := s.q.read
    let s := { s with q, history := s.history ++ [.msg .get (s.tag c) message] }
    match firstToUnpend s with
    | some pending =>
      let s := { s with
        q := s.q.write (swapData s pending)
        history := s.history ++ [.msg .put (s.tag (some pending)) (swapData s pending)] }
      some (returnCall (wake s pending 0) c .get message 0)
    | none => some (returnCall s c .get message 0)
  else if timeout = .noWait then some (returnCall s c .get data eNoMsg)
  else pend s c .get data timeout

def wakeAll (s : State A T) : Nat → State A T
  | 0 => s
  | n + 1 =>
    match firstToUnpend s with
    | some pending => wakeAll (wake s pending eNoMsg) n
    | none => s

def kMsgqPurge : State A T :=
  let s := wakeAll s s.waitQ.length
  { s with
    q := { s.q with usedMsgs := 0, readPtr := s.q.writePtr }
    history := s.history ++ [.purge] }

def resume : Option (State A T) :=
  match s.call t with
  | some c =>
    if t ∈ s.waitQ then none
    else some (returnCall { s with call := update s.call t none } (some t) c.kind c.swapData
      c.ret)
  | none => none

inductive Act (A T : Type) where
  | put (c : Option T) (data : List A) (timeout : Wait)
  | get (c : Option T) (data : List A) (timeout : Wait)
  | purge
  | ret (t : T)
  | announce
  | expire (t : T)
  | timeout (t : T)
  | announced
  | prioritySet (t : T) (prio : Int)

def step : Act A T → Option (State A T)
  | .put c data timeout => kMsgqPut s c data timeout
  | .get c data timeout => kMsgqGet s c data timeout
  | .purge => some (kMsgqPurge s)
  | .ret t => resume s t
  | .announce => if s.handlingTimeouts then none else some { s with handlingTimeouts := true }
  | .expire t =>
    -- a round of the loop of handle_timeouts
    if s.handlingTimeouts ∧ t ∈ s.waitQ ∧ (s.call t).any (·.timed) then
      some (setCall s t fun c => { c with timed := false, expired := true })
    else none
  | .timeout t =>
    -- _handle_one_expired_timeout
    if isThreadTimeoutExpired s t then
      some { setCall s t fun c => { c with expired := false } with waitQ := s.waitQ.erase t }
    else none
  | .announced =>
    if s.handlingTimeouts ∧ s.waitQ.all (!isThreadTimeoutExpired s ·) then
      some { s with handlingTimeouts := false }
    else none
  | .prioritySet t prio => some { s with prio := update s.prio t prio }

/-- A thread makes one call at a time, and none while the clock interrupt runs; an interrupt does not
wait. The buffers of the callers have the size of a message. -/
def Allowed : Act A T → Prop
  | .put (some t) data _ | .get (some t) data _ =>
    data.length = s.q.msgSize ∧ s.call t = none ∧ s.handlingTimeouts = false
  | .put none data timeout | .get none data timeout =>
    data.length = s.q.msgSize ∧ timeout = .noWait
  | _ => True

def initState (buffer : Nat → A) (msgSize maxMsgs : Nat) (prio : T → Int) : State A T where
  q := ⟨msgSize, maxMsgs, buffer, 0, 0, 0⟩
  waitQ := []
  prio := prio
  call := fun _ => none
  handlingTimeouts := false
  made := fun _ => 0
  history := []
  returned := []

end

open List

variable {q : KMsgq A} {data : List A} {i j k : Nat}

def KMsgq.messages (q : KMsgq A) : List (List A) :=
  (range q.usedMsgs).map fun j =>
    readRun q.buffer ((q.readPtr + j * q.msgSize) % q.bufferEnd) q.msgSize

structure KMsgq.Wf (q : KMsgq A) : Prop where
  used : q.usedMsgs ≤ q.maxMsgs
  ptrs : ∃ i < q.maxMsgs, q.readPtr = i * q.msgSize ∧
    q.writePtr = (i + q.usedMsgs) % q.maxMsgs * q.msgSize

@[simp] theorem KMsgq.length_messages (q : KMsgq A) : q.messages.length = q.usedMsgs := by
  simp [messages]

theorem KMsgq.slot_eq (q : KMsgq A) (i j : Nat) :
    (i * q.msgSize + j * q.msgSize) % q.bufferEnd = (i + j) % q.maxMsgs * q.msgSize := by
  rw [← Nat.add_mul, bufferEnd, Nat.mul_mod_mul_right]

theorem KMsgq.next_slot (q : KMsgq A) (hk : k < q.maxMsgs) :
    (if k * q.msgSize + q.msgSize = q.bufferEnd then 0 else k * q.msgSize + q.msgSize) =
      (k + 1) % q.maxMsgs * q.msgSize := by
  have hle : k * q.msgSize + q.msgSize ≤ q.bufferEnd := by
    rw [← Nat.succ_mul]
    exact Nat.mul_le_mul_right _ hk
  rw [wrap_eq_mod hle]
  simpa using q.slot_eq k 1

theorem KMsgq.Wf.write (h : q.Wf) (hfree : q.usedMsgs < q.maxMsgs) (hd : data.length = q.msgSize) :
    (q.write data).Wf ∧ (q.write data).messages = q.messages ++ [data] := by
  obtain ⟨i, hi, hr, hw⟩ := h.ptrs
  have hk : (i + q.usedMsgs) % q.maxMsgs < q.maxMsgs := Nat.mod_lt _ (by omega)
  refine ⟨⟨hfree, i, hi, hr, ?_⟩, ?_⟩
  · simp only [KMsgq.write, hw]
    rw [q.next_slot hk, Nat.mod_add_mod, Nat.add_assoc]
  · have hread : (q.write data).messages = (range (q.usedMsgs + 1)).map fun j =>
        readRun (writeRun q.buffer q.writePtr data) ((q.readPtr + j * q.msgSize) % q.bufferEnd)
          q.msgSize := rfl
    rw [hread, range_succ, map_append, map_singleton]
    congr 1
    · refine map_congr_left fun j hj => readRun_writeRun_off ?_
      have hj := mem_range.mp hj
      -- the slot written is not one of the used ones
      have hne : (i + j) % q.maxMsgs ≠ (i + q.usedMsgs) % q.maxMsgs := fun he => by
        have := cell_inj he (by omega) hfree
        omega
      rw [hr, q.slot_eq, hw, hd, ← Nat.succ_mul, ← Nat.succ_mul]
      exact hne.lt_or_gt.imp (Nat.mul_le_mul_right _) (Nat.mul_le_mul_right _)
    · rw [hr, q.slot_eq, ← hw, ← hd, readRun_writeRun_self]

theorem KMsgq.Wf.read (h : q.Wf) (hused : 0 < q.usedMsgs) :
    q.read.2.Wf ∧ q.messages = q.read.1 :: q.read.2.messages := by
  obtain ⟨i, hi, hr, hw⟩ := h.ptrs
  have hpos : 0 < q.maxMsgs := by omega
  have hnext : q.read.2.readPtr = (i + 1) % q.maxMsgs * q.msgSize := by
    simp only [KMsgq.read, hr]
    exact q.next_slot hi
  obtain ⟨u, hu⟩ : ∃ u, q.usedMsgs = u + 1 := ⟨q.usedMsgs - 1, by omega⟩
  have hu' : q.read.2.usedMsgs = u := by simp [KMsgq.read, hu]
  refine ⟨⟨?_, (i + 1) % q.maxMsgs, Nat.mod_lt _ hpos, hnext, ?_⟩, ?_⟩
  · have : q.read.2.maxMsgs = q.maxMsgs := rfl
    have := h.used
    omega
  · rw [hu']
    change q.writePtr = _ % q.maxMsgs * q.msgSize
    rw [hw, hu, Nat.mod_add_mod, Nat.add_assoc, Nat.add_comm 1]
  · unfold KMsgq.messages
    rw [hu, hu', range_succ_eq_map, map_cons, map_map]
    congr 1
    · simp only [KMsgq.read, hr]
      rw [q.slot_eq, Nat.add_zero, Nat.mod_eq_of_lt hi]
    · refine map_congr_left fun j _ => ?_
      simp only [hnext, hr]
      change readRun q.buffer _ q.msgSize =
        readRun q.buffer ((_ + j * q.msgSize) % q.bufferEnd) q.msgSize
      rw [q.slot_eq, q.slot_eq, Nat.mod_add_mod, Nat.add_assoc, Nat.add_comm 1]

open Option

variable {T : Type}

def Event.op : Event A T → FifoOp (List A)
  | .msg .put _ data => .put data
  | .msg .get _ _ => .get
  | .purge => .purge

def gets (history : List (Event A T)) : List (List A) :=
  history.filterMap fun
    | .msg .get _ data => some data
    | _ => none

def entries (history : List (Event A T)) : List (Tag (Option T) × Kind × List A) :=
  history.filterMap fun
    | .msg kind tag data => some (tag, kind, data)
    | .purge => none

@[simp] theorem entries_append_msg (history : List (Event A T)) (kind : Kind)
    (tag : Tag (Option T)) (data : List A) :
    entries (history ++ [.msg kind tag data]) = entries history ++ tagged tag [(kind, data)] := by
  simp [entries, tagged]

@[simp] theorem entries_append_purge (history : List (Event A T)) :
    entries (history ++ [.purge]) = entries history := by
  simp [entries]

variable [DecidableEq T]

abbrev Books (cur : Option (Tag (Option T))) (s : State A T) : Prop :=
  Ledger (fun (c : Call A) es => es = if c.ret = 0 then [(c.kind, c.swapData)] else [])
    (fun (r : Result A T) es => es = if r.code = 0 then [(r.kind, r.data)] else []) cur
    (fun c => c.bind s.call) s.made (s.returned.map fun r => (r.caller, r.k, r)) 0
    (entries s.history)

structure Waits (q : KMsgq A) (handlingTimeouts : Bool) (waitQ : List T) (call : T → Option (Call A)) :
    Prop where
  nodup : waitQ.Nodup
  pended : ∀ t ∈ waitQ, ∃ c, call t = some c ∧ c.ret = eAgain
  fill : ∀ t ∈ waitQ, ∀ c, call t = some c → c.expired = false →
    q.usedMsgs = match c.kind with | .get => 0 | .put => q.maxMsgs
  kinds : ∀ t ∈ waitQ, ∀ u ∈ waitQ, ∀ c d, call t = some c → call u = some d → c.kind = d.kind
  expired : ∀ t c, call t = some c → c.expired = true → handlingTimeouts = true ∧ t ∈ waitQ
  size : ∀ t c, call t = some c → c.swapData.length = q.msgSize

abbrev State.Waits (s : State A T) : Prop := MsgQ.Waits s.q s.handlingTimeouts s.waitQ s.call

structure Inv (s : State A T) : Prop where
  books : Books none s
  waits : s.Waits
  wf : s.q.Wf
  fifo : Fifo.run s.q.maxMsgs (s.history.map Event.op) = some ⟨s.q.messages, gets s.history⟩
  unique : (s.returned.map fun r => (r.caller, r.k)).Nodup

variable {s : State A T} {t : T} {c : Option T} {cur : Option (Tag (Option T))} {data : List A}
  {timeout : Wait} {kind : Kind} {code : Int} {q : KMsgq A} {handling : Bool} {waitQ : List T}
  {call : T → Option (Call A)} {prio : T → Int}

omit [DecidableEq T] in
theorem firstToUnpend_eq_some {p : T} (h : s.Waits) (hp : firstToUnpend s = some p) :
    p ∈ s.waitQ ∧ ∃ c, s.call p = some c ∧ c.ret = eAgain ∧ c.expired = false := by
  have hmem := mem_of_findFirst hp
  obtain ⟨c, hc, hret⟩ := h.pended p hmem
  refine ⟨hmem, c, hc, hret, Bool.eq_false_iff.mpr fun he => ?_⟩
  have hf : findFirstThreadToUnpend true (isThreadTimeoutExpired s) s.waitQ = some p :=
    (h.expired p c hc he).1 ▸ hp
  have := find?_some hf
  simp [isThreadTimeoutExpired, hc, he] at this

omit [DecidableEq T] in
theorem firstToUnpend_eq_none (h : firstToUnpend s = none) {c : Call A} (ht : t ∈ s.waitQ)
    (hc : s.call t = some c) : c.expired = true := by
  unfold firstToUnpend findFirstThreadToUnpend at h
  split_ifs at h
  · simpa [isThreadTimeoutExpired, hc] using find?_eq_none.mp h t ht
  · rw [head?_eq_none_iff] at h
    simp [h] at ht

theorem Waits.leave (h : Waits q handling waitQ call) (o : Option (Call A))
    (ho : ∀ c, o = some c → c.expired = false ∧ c.swapData.length = q.msgSize) :
    Waits q handling (waitQ.erase t) (update call t o) := by
  have hne : ∀ u ∈ waitQ.erase t, u ≠ t ∧ u ∈ waitQ := fun u hu => (h.nodup.mem_erase_iff).mp hu
  have hold : ∀ u ∈ waitQ.erase t, ∀ c, update call t o u = some c →
      u ∈ waitQ ∧ call u = some c := fun u hu c hc => by
    rw [update_of_ne (hne u hu).1] at hc
    exact ⟨(hne u hu).2, hc⟩
  refine ⟨h.nodup.erase t, fun u hu => ?_, fun u hu c hc => ?_, fun u hu v hv c d hc hd => ?_,
    fun u c hc he => ?_, fun u c hc => ?_⟩
  · rw [update_of_ne (hne u hu).1]
    exact h.pended u (hne u hu).2
  · obtain ⟨hu', hc'⟩ := hold u hu c hc
    exact h.fill u hu' c hc'
  · obtain ⟨hu', hc'⟩ := hold u hu c hc
    obtain ⟨hv', hd'⟩ := hold v hv d hd
    exact h.kinds u hu' v hv' c d hc' hd'
  · rcases eq_some_of_update hc with ⟨-, ho'⟩ | ⟨hut, hc⟩
    · simp [(ho c ho').1] at he
    · obtain ⟨h1, h2⟩ := h.expired u c hc he
      exact ⟨h1, (h.nodup.mem_erase_iff).mpr ⟨hut, h2⟩⟩
  · rcases eq_some_of_update hc with ⟨-, ho'⟩ | ⟨-, hc⟩
    · exact (ho c ho').2
    · exact h.size u c hc

omit [DecidableEq T] in
theorem Waits.fillTo (h : Waits q handling waitQ call) {q' : KMsgq A} (hm : q'.msgSize = q.msgSize)
    (hf : ∀ t ∈ waitQ, ∀ c, call t = some c → c.expired = false →
      q'.usedMsgs = match c.kind with | .get => 0 | .put => q'.maxMsgs) :
    Waits q' handling waitQ call :=
  ⟨h.nodup, h.pended, hf, h.kinds, h.expired, fun t c hc => (h.size t c hc).trans hm.symm⟩

theorem Waits.pend (h : Waits q false waitQ call) (ht : call t = none) (hpos : 0 < q.maxMsgs)
    (hd : data.length = q.msgSize) {timed : Bool}
    (hfill : q.usedMsgs = match kind with | .get => 0 | .put => q.maxMsgs) :
    Waits q false (pendThread prio t waitQ)
      (update call t (some ⟨kind, data, timed, false, eAgain⟩)) := by
  have hlive : ∀ u c, call u = some c → c.expired = false := fun u c hc =>
    Bool.eq_false_iff.mpr fun he => by simpa using (h.expired u c hc he).1
  have hnot : t ∉ waitQ := fun hm => by
    obtain ⟨c, hc, -⟩ := h.pended t hm
    simp [ht] at hc
  -- the fill level tells the kind of every thread that waits
  have hkind : ∀ u ∈ waitQ, ∀ c, call u = some c → c.kind = kind := by
    intro u hu c hc
    have hu' := h.fill u hu c hc (hlive u c hc)
    cases hk : c.kind <;> cases kind <;> simp only [hk] at hu' hfill ⊢ <;> omega
  have hall : ∀ u ∈ pendThread prio t waitQ, ∀ c,
      update call t (some ⟨kind, data, timed, false, eAgain⟩) u = some c →
      c.kind = kind := by
    intro u hu c hc
    rcases eq_some_of_update hc with ⟨-, ho⟩ | ⟨hut, hc⟩
    · rw [← some.inj ho]
    · exact hkind u ((mem_pendThread.mp hu).resolve_left hut) c hc
  refine ⟨nodup_pendThread h.nodup hnot, fun u hu => ?_, fun u hu c hc _ => ?_,
    fun u hu v hv c d hc hd => (hall u hu c hc).trans (hall v hv d hd).symm, fun u c hc he => ?_,
    fun u c hc => ?_⟩
  · by_cases hut : u = t
    · subst hut
      exact ⟨_, update_self _ _ _, rfl⟩
    · rw [update_of_ne hut]
      exact h.pended u ((mem_pendThread.mp hu).resolve_left hut)
  · rw [hall u hu c hc]
    exact hfill
  · rcases eq_some_of_update hc with ⟨-, ho⟩ | ⟨-, hc⟩
    · simp [← some.inj ho] at he
    · simp [hlive u c hc] at he
  · rcases eq_some_of_update hc with ⟨-, ho⟩ | ⟨-, hc⟩
    · rw [← some.inj ho]
      exact hd
    · exact h.size u c hc

variable {k : Call A}

theorem Waits.expire (h : Waits q true waitQ call) (ht : t ∈ waitQ) (hk : call t = some k) :
    Waits q true waitQ (update call t (some { k with timed := false, expired := true })) := by
  have hcall : ∀ u c, update call t (some { k with timed := false, expired := true }) u =
      some c → ∃ c', call u = some c' ∧ c'.kind = c.kind ∧ c'.swapData = c.swapData ∧
        (c.expired = false ∨ u ≠ t → c' = c) := by
    intro u c hc
    rcases eq_some_of_update hc with ⟨rfl, ho⟩ | ⟨-, hc⟩
    · cases ho
      exact ⟨k, hk, rfl, rfl, by simp⟩
    · exact ⟨c, hc, rfl, rfl, fun _ => rfl⟩
  refine ⟨h.nodup, fun u hu => ?_, fun u hu c hc he => ?_, fun u hu v hv c d hc hd => ?_,
    fun u c hc he => ⟨rfl, ?_⟩, fun u c hc => ?_⟩
  · obtain ⟨c, hc, hr⟩ := h.pended u hu
    by_cases hut : u = t
    · subst hut
      cases hc.symm.trans hk
      exact ⟨_, update_self _ _ _, hr⟩
    · exact ⟨c, (update_of_ne hut _ _).trans hc, hr⟩
  · obtain ⟨c', hc', -, -, hsame⟩ := hcall u c hc
    obtain rfl := hsame (.inl he)
    exact h.fill u hu c' hc' he
  · obtain ⟨c', hc', hkc, -⟩ := hcall u c hc
    obtain ⟨d', hd', hkd, -⟩ := hcall v d hd
    rw [← hkc, ← hkd]
    exact h.kinds u hu v hv c' d' hc' hd'
  · by_cases hut : u = t
    · exact hut ▸ ht
    · obtain ⟨c', hc', -, -, hsame⟩ := hcall u c hc
      obtain rfl := hsame (.inr hut)
      exact (h.expired u c' hc' he).2
  · obtain ⟨c', hc', -, hd, -⟩ := hcall u c hc
    rw [← hd]
    exact h.size u c' hc'

theorem bind_update (call : T → Option (Call A)) (o : Option (Call A)) :
    (fun c : Option T => c.bind (update call t o)) = update (fun c => c.bind call) (some t) o := by
  funext c
  cases c with
  | none => rw [update_of_ne (by simp)]; rfl
  | some u =>
    by_cases hu : u = t
    · simp [hu]
    · simp [hu]

theorem Books.hand (h : Books cur s) {c : Call A} (ht : s.call t = some c) (hr : c.ret = eAgain)
    (hk : c.kind = kind) {waitQ : List T} {q : KMsgq A} :
    Books cur { s with
      q, waitQ
      call := update s.call t
        (some { c with swapData := data, ret := 0, timed := false, expired := false })
      history := s.history ++ [.msg kind (s.tag (some t)) data] } := by
  subst hk
  have hopen := h.opened (some t) c ht
  simp only [hr] at hopen
  have := h.append_call (t := some t) (l := [(c.kind, data)])
    (d := { c with swapData := data, ret := 0, timed := false, expired := false }) ht
    (by rw [hopen]; rfl)
  simpa only [Books, entries_append_msg, bind_update, State.tag] using this

theorem Books.setCall (h : Books cur s) {c : Call A} (ht : s.call t = some c) (c' : Call A)
    (waitQ : List T) (hc : c.ret = c'.ret ∨ c.ret ≠ 0 ∧ c'.ret ≠ 0) (hk : c'.kind = c.kind)
    (hd : c'.swapData = c.swapData) :
    Books cur { s with waitQ, call := update s.call t (some c') } := by
  have hopen := h.opened (some t) c ht
  have := h.update_call (t := some t) (d := c') ht ?_
  · simpa only [Books, bind_update] using this
  · rw [hopen, hk, hd]
    rcases hc with hc | ⟨h1, h2⟩
    · rw [hc]
    · rw [if_neg h1, if_neg h2]

theorem Books.record (h : Books (some (s.tag c)) s) {q : KMsgq A} : Books (some (s.tag c)) { s with
      q, history := s.history ++ [.msg kind (s.tag c) data] } := by
  have := h.append_cur (l := [(kind, data)])
  simpa only [Books, entries_append_msg] using this

theorem Books.returnCall (h : Books (some (s.tag c)) s)
    (hb : bytesOf (s.tag c) (entries s.history) = if code = 0 then [(kind, data)] else []) :
    Books none (returnCall s c kind data code) := by
  have hnone : c.bind s.call = none := (h.apart c _ rfl).2
  have := h.finish (r := ⟨c, s.made c, kind, data, code⟩) hb
  rw [← hnone] at this
  simpa [Books, MsgQ.returnCall, update_eq_self] using this

theorem Inv.start (h : Inv s) (hc : c.bind s.call = none) :
    Books (some (s.tag c)) s ∧ bytesOf (s.tag c) (entries s.history) = [] :=
  ⟨h.books.start hc, h.books.bytesOf_next hc⟩

omit [DecidableEq T] in
theorem allowed_call (ha : Allowed s (.put c data timeout) ∨ Allowed s (.get c data timeout)) :
    data.length = s.q.msgSize ∧ c.bind s.call = none ∧
      ∀ t, c = some t → s.handlingTimeouts = false := by
  cases c with
  | none => rcases ha with ha | ha <;> exact ⟨ha.1, rfl, nofun⟩
  | some t => rcases ha with ha | ha <;> exact ⟨ha.1, ha.2.1, fun _ _ => ha.2.2⟩

theorem bytesOf_recorded (hn : bytesOf (s.tag c) (entries s.history) = []) :
    bytesOf (s.tag c) (entries (s.history ++ [.msg kind (s.tag c) data])) = [(kind, data)] := by
  rw [entries_append_msg, bytesOf_append, hn, bytesOf_tagged, nil_append]

theorem bytesOf_handed {kind' : Kind} {data' : List A} (hn : bytesOf (s.tag c) (entries s.history) = [])
    (hc : c ≠ some t) : bytesOf (s.tag c) (entries (s.history ++ [.msg kind (s.tag c) data] ++
      [.msg kind' (s.tag (some t)) data'])) = [(kind, data)] := by
  have hne : s.tag c ≠ s.tag (some t) := by simp [State.tag, hc]
  rw [entries_append_msg, bytesOf_append, bytesOf_recorded hn, bytesOf_tagged_of_ne hne]
  rfl

omit [DecidableEq T] in
theorem unique_append {returned : List (Result A T)} {r : Result A T}
    (h : (returned.map fun r => (r.caller, r.k)).Nodup)
    (hr : ∀ x ∈ returned, x.caller = r.caller → x.k < r.k) :
    ((returned ++ [r]).map fun r => (r.caller, r.k)).Nodup := by
  rw [map_append, nodup_append]
  refine ⟨h, by simp, fun a ha b hb he => ?_⟩
  obtain ⟨x, hx, rfl⟩ := mem_map.mp ha
  obtain ⟨h1, h2⟩ : x.caller = r.caller ∧ x.k = r.k := by
    simpa [← he] using hb
  exact (hr x hx h1).ne h2

theorem Inv.returnCall (hb : Books (some (s.tag c)) s) (hw : s.Waits) (hq : s.q.Wf)
    (hf : Fifo.run s.q.maxMsgs (s.history.map Event.op) = some ⟨s.q.messages, gets s.history⟩)
    (hu : (s.returned.map fun r => (r.caller, r.k)).Nodup)
    (he : bytesOf (s.tag c) (entries s.history) = if code = 0 then [(kind, data)] else []) :
    Inv (returnCall s c kind data code) := by
  refine ⟨hb.returnCall he, hw, hq, hf, unique_append hu fun x hx hxc => ?_⟩
  have := (hb.result x.caller x.k x (mem_map.mpr ⟨x, hx, rfl⟩)).1
  rwa [hxc] at this

variable {r : State A T}

theorem Inv.pend (h : Inv s) (ht : s.call t = none) (hh : s.handlingTimeouts = false)
    (hpos : 0 < s.q.maxMsgs) (hd : data.length = s.q.msgSize)
    (hfill : s.q.usedMsgs = match kind with | .get => 0 | .put => s.q.maxMsgs)
    (hr : pend s (some t) kind data timeout = some r) : Inv r := by
  cases hr
  obtain ⟨hb, hn⟩ := h.start (c := some t) ht
  have hw := h.waits
  rw [State.Waits, hh] at hw
  refine { h with books := ?_, waits := ?_ }
  · have := hb.pend (c := ⟨kind, data, timeout != .forever, false, eAgain⟩) hn
    simpa only [Books, bind_update] using this
  · rw [State.Waits, hh]
    exact hw.pend ht hpos hd hfill

theorem Inv.refuse (h : Inv s) (hc : c.bind s.call = none)
    (hh : ∀ t, c = some t → s.handlingTimeouts = false) (hpos : 0 < s.q.maxMsgs)
    (hd : data.length = s.q.msgSize)
    (hfill : s.q.usedMsgs = match kind with | .get => 0 | .put => s.q.maxMsgs)
    (hr : (if timeout = .noWait then some (MsgQ.returnCall s c kind data eNoMsg)
      else MsgQ.pend s c kind data timeout) = some r) : Inv r := by
  split_ifs at hr
  · cases hr
    obtain ⟨hb, hn⟩ := h.start hc
    exact Inv.returnCall hb h.waits h.wf h.fifo h.unique hn
  · cases c with
    | none => cases hr
    | some t => exact h.pend hc (hh t rfl) hpos hd hfill hr

omit [DecidableEq T] in
theorem fifo_append {cap : Nat} {history : List (Event A T)} {f g : Fifo (List A)}
    {es : List (Event A T)} (h : Fifo.run cap (history.map Event.op) = some f)
    (hg : (es.map Event.op).foldlM (Fifo.step cap) f = some g) :
    Fifo.run cap ((history ++ es).map Event.op) = some g := by
  rw [map_append, Fifo.run_append, h]
  exact hg

theorem setCall_eq (hk : s.call t = some k) (f : Call A → Call A) :
    setCall s t f = { s with call := update s.call t (some (f k)) } := by
  simp [setCall, hk]

theorem wake_setCall (hk : s.call t = some k) (q : KMsgq A)
    (history : List (Event A T)) (f : Call A → Call A) (code : Int) :
    wake (setCall { s with q, history } t f) t code = { s with
      q, history
      waitQ := s.waitQ.erase t
      call := update s.call t
        (some { f k with ret := code, timed := false, expired := false }) } := by
  simp [wake, setCall, hk]

theorem wake_eq (hk : s.call t = some k) (q : KMsgq A) (history : List (Event A T)) (code : Int) :
    wake { s with q, history } t code = { s with
      q, history
      waitQ := s.waitQ.erase t
      call := update s.call t (some { k with ret := code, timed := false, expired := false }) } := by
  simp [wake, setCall, hk]

theorem Inv.put (h : Inv s) (hpos : 0 < s.q.maxMsgs) (ha : Allowed s (.put c data timeout))
    (hr : kMsgqPut s c data timeout = some r) : Inv r := by
  obtain ⟨hd, hc, hh⟩ := allowed_call (.inl ha)
  obtain ⟨hb, hn⟩ := h.start hc
  unfold kMsgqPut at hr
  by_cases hfree : s.q.usedMsgs < s.q.maxMsgs
  · rw [if_pos hfree] at hr
    cases hp : firstToUnpend s with
    | some p =>
      -- the message goes to the first reader that waits
      obtain ⟨hmem, k, hk, hret, hexp⟩ := firstToUnpend_eq_some h.waits hp
      have hfill := h.waits.fill p hmem k hk hexp
      cases hkind : k.kind <;> rw [hkind] at hfill
      case put => exact absurd hfill hfree.ne
      have hnil : s.q.messages = [] := eq_nil_of_length_eq_zero (by simpa using hfill)
      have hcp : c ≠ some p := by
        rintro rfl
        simp [hk] at hc
      simp only [hp] at hr
      rw [wake_setCall (k := k) hk] at hr
      cases hr
      refine Inv.returnCall ?_ (h.waits.leave _ ?_) h.wf ?_ h.unique ?_
      · exact Books.hand (hb.record (q := s.q)) hk hret hkind
      · rintro _ ⟨⟩
        exact ⟨rfl, hd⟩
      · refine fifo_append (f := ⟨[data], gets s.history⟩) (fifo_append h.fifo ?_) ?_
        · simp [Event.op, Fifo.step, hnil, hpos]
        · simp [Event.op, Fifo.step, hnil, gets]
      · exact bytesOf_handed hn hcp
    | none =>
      simp only [hp] at hr
      cases hr
      obtain ⟨hq, hm⟩ := h.wf.write hfree hd
      refine Inv.returnCall hb.record (h.waits.fillTo rfl fun t ht k hk he => ?_) hq ?_ h.unique ?_
      · simp [firstToUnpend_eq_none hp ht hk] at he
      · refine fifo_append h.fifo ?_
        have hmax : s.q.usedMsgs < (s.q.write data).maxMsgs := hfree
        simp [Event.op, Fifo.step, hmax, hm, gets]
      · exact bytesOf_recorded hn
  · rw [if_neg hfree] at hr
    have := h.wf.used
    exact h.refuse hc hh hpos hd (by dsimp only; omega) hr

theorem Inv.get (h : Inv s) (hpos : 0 < s.q.maxMsgs) (ha : Allowed s (.get c data timeout))
    (hr : kMsgqGet s c data timeout = some r) : Inv r := by
  obtain ⟨hd, hc, hh⟩ := allowed_call (.inr ha)
  obtain ⟨hb, hn⟩ := h.start hc
  unfold kMsgqGet at hr
  by_cases hused : 0 < s.q.usedMsgs
  · rw [if_pos hused] at hr
    obtain ⟨hq, hm⟩ := h.wf.read hused
    generalize hread : s.q.read = mq at hr hq hm
    obtain ⟨message, q⟩ := mq
    have hq' : q = s.q.read.2 := by rw [hread]
    have hmax : q.maxMsgs = s.q.maxMsgs := by rw [hq']; rfl
    have hsize : q.msgSize = s.q.msgSize := by rw [hq']; rfl
    have hless : q.usedMsgs = s.q.usedMsgs - 1 := by rw [hq']; rfl
    have hfirst : firstToUnpend { s with
        q, history := s.history ++ [.msg .get (s.tag c) message] } = firstToUnpend s := rfl
    simp only [hfirst] at hr
    cases hp : firstToUnpend s with
    | some p =>
      -- the buffer was full, and the message of the first writer that waits fills it again
      obtain ⟨hmem, k, hk, hret, hexp⟩ := firstToUnpend_eq_some h.waits hp
      have hfill := h.waits.fill p hmem k hk hexp
      cases hkind : k.kind <;> rw [hkind] at hfill
      case get => exact absurd hfill hused.ne'
      dsimp only at hfill hq hm
      have hcp : c ≠ some p := by
        rintro rfl
        simp [hk] at hc
      have hswap := (h.waits.size p k hk).trans hsize.symm
      obtain ⟨hq2, hm2⟩ := hq.write (by omega) hswap
      have hwaits : Waits (q.write k.swapData) s.handlingTimeouts s.waitQ s.call := by
        refine h.waits.fillTo hsize fun t ht k' hk' _ => ?_
        rw [h.waits.kinds t ht p hmem k' k hk' hk, hkind]
        change q.usedMsgs + 1 = q.maxMsgs
        omega
      simp only [hp, swapData, hk] at hr
      rw [wake_eq hk] at hr
      cases hr
      refine Inv.returnCall ?_ (hwaits.leave _ ?_) hq2 ?_ h.unique ?_
      · exact Books.hand (hb.record (q := s.q)) hk hret hkind
      · rintro _ ⟨⟩
        exact ⟨rfl, hswap⟩
      · change Fifo.run q.maxMsgs _ = _
        rw [hmax]
        refine fifo_append (f := ⟨q.messages, gets s.history ++ [message]⟩)
          (fifo_append h.fifo ?_) ?_
        · simp [Event.op, Fifo.step, hm]
        · have hlt : q.usedMsgs < s.q.maxMsgs := by omega
          simp [Event.op, Fifo.step, hlt, hm2, gets]
      · exact bytesOf_handed hn hcp
    | none =>
      simp only [hp] at hr
      cases hr
      refine Inv.returnCall hb.record (h.waits.fillTo hsize fun t ht k hk he => ?_) hq ?_ h.unique ?_
      · simp [firstToUnpend_eq_none hp ht hk] at he
      · change Fifo.run q.maxMsgs _ = _
        rw [hmax]
        refine fifo_append h.fifo ?_
        simp [Event.op, Fifo.step, hm, gets]
      · exact bytesOf_recorded hn
  · rw [if_neg hused] at hr
    exact h.refuse hc hh hpos hd (by dsimp only; omega) hr

theorem wakeAll_spec (hb : Books none s) (hw : s.Waits) (n : Nat) :
    ∃ waitQ call, wakeAll s n = { s with waitQ, call } ∧ Books none { s with waitQ, call } ∧
      Waits s.q s.handlingTimeouts waitQ call ∧
      (s.waitQ.length ≤ n → firstToUnpend { s with waitQ, call } = none) := by
  induction n generalizing s with
  | zero =>
    refine ⟨s.waitQ, s.call, rfl, hb, hw, fun hle => ?_⟩
    have hnil := eq_nil_of_length_eq_zero (Nat.le_zero.mp hle)
    simp [firstToUnpend, findFirstThreadToUnpend, hnil]
  | succ n ih =>
    unfold wakeAll
    cases hp : firstToUnpend s with
    | none => exact ⟨s.waitQ, s.call, rfl, hb, hw, fun _ => hp⟩
    | some p =>
      obtain ⟨hmem, k, hk, hret, hexp⟩ := firstToUnpend_eq_some hw hp
      have hwake := wake_eq hk s.q s.history eNoMsg
      have hb' := hb.setCall hk { k with ret := eNoMsg, timed := false, expired := false }
        (s.waitQ.erase p) (.inr ⟨by rw [hret]; decide, by simp [eNoMsg]⟩) rfl rfl
      have hw' := hw.leave (t := p) (some { k with ret := eNoMsg, timed := false, expired := false })
        (by rintro _ ⟨⟩; exact ⟨rfl, hw.size p k hk⟩)
      dsimp only
      rw [hwake]
      obtain ⟨waitQ, call, heq, hb2, hw2, hnone⟩ := ih hb' hw'
      refine ⟨waitQ, call, heq, hb2, hw2, fun hle => hnone ?_⟩
      have := length_erase_of_mem hmem
      dsimp only
      omega

theorem Inv.purge (h : Inv s) : Inv (kMsgqPurge s) := by
  obtain ⟨_, _, heq, hb, hw, hnone⟩ := wakeAll_spec h.books h.waits s.waitQ.length
  unfold kMsgqPurge
  rw [heq]
  obtain ⟨i, hi, hr, hwp⟩ := h.wf.ptrs
  refine ⟨by simpa only [Books, entries_append_purge] using hb, hw.fillTo rfl fun t ht c hc he => ?_,
    ⟨Nat.zero_le _, (i + s.q.usedMsgs) % s.q.maxMsgs, Nat.mod_lt _ (by omega), hwp, ?_⟩, ?_, h.unique⟩
  · simp [firstToUnpend_eq_none (hnone le_rfl) ht hc] at he
  · simpa using hwp
  · refine fifo_append h.fifo ?_
    simp [Event.op, Fifo.step, KMsgq.messages, gets]

theorem Inv.step (h : Inv s) {a : Act A T} (ha : Allowed s a) (hr : step s a = some r) : Inv r := by
  have hpos : 0 < s.q.maxMsgs := by
    obtain ⟨i, hi, -⟩ := h.wf.ptrs
    omega
  cases a with
  | put c data timeout => exact h.put hpos ha hr
  | get c data timeout => exact h.get hpos ha hr
  | purge =>
    cases hr
    exact h.purge
  | ret t =>
    simp only [MsgQ.step, resume] at hr
    split at hr
    · rename_i k hk
      split_ifs at hr with ht
      cases hr
      have hb : Books (some (s.tag (some t))) { s with call := update s.call t none } := by
        have := h.books.resume (t := some t) hk
        simpa only [Books, bind_update, State.tag] using this
      have hw := h.waits.leave (t := t) none (by simp)
      rw [erase_of_not_mem ht] at hw
      exact Inv.returnCall hb hw h.wf h.fifo h.unique (h.books.opened (some t) k hk)
    · cases hr
  | announce =>
    simp only [MsgQ.step] at hr
    split_ifs at hr with hh
    cases hr
    exact { h with waits := { h.waits with expired := fun t c hc he =>
      ⟨rfl, (h.waits.expired t c hc he).2⟩ } }
  | expire t =>
    simp only [MsgQ.step] at hr
    split_ifs at hr with hcond
    cases hr
    obtain ⟨hh, hmem, -⟩ := hcond
    obtain ⟨k, hk, hret⟩ := h.waits.pended t hmem
    have hw := h.waits
    rw [State.Waits, hh] at hw
    rw [setCall_eq hk]
    refine ⟨h.books.setCall hk { k with timed := false, expired := true } _ (.inl rfl) rfl rfl, ?_,
      h.wf, h.fifo, h.unique⟩
    rw [State.Waits, hh]
    exact hw.expire hmem hk
  | timeout t =>
    simp only [MsgQ.step] at hr
    split_ifs at hr with he
    cases hr
    cases hk : s.call t with
    | none => simp [isThreadTimeoutExpired, hk] at he
    | some k =>
      rw [setCall_eq hk]
      exact ⟨h.books.setCall hk { k with expired := false } _ (.inl rfl) rfl rfl,
        h.waits.leave _ (by rintro _ ⟨⟩; exact ⟨rfl, h.waits.size t k hk⟩), h.wf, h.fifo, h.unique⟩
  | announced =>
    simp only [MsgQ.step] at hr
    split_ifs at hr with hcond
    cases hr
    refine { h with waits := { h.waits with expired := fun t c hc he => ?_ } }
    have := all_eq_true.mp hcond.2 t (h.waits.expired t c hc he).2
    simp [isThreadTimeoutExpired, show s.call t = some c from hc, he] at this
  | prioritySet t prio =>
    cases hr
    exact { h with }

@[simp] theorem q_wakeAll (s : State A T) (n : Nat) : (wakeAll s n).q = s.q := by
  induction n generalizing s with
  | zero => rfl
  | succ n ih =>
    unfold wakeAll
    split
    · exact ih _
    · rfl

theorem step_maxMsgs {a : Act A T} (hr : step s a = some r) : r.q.maxMsgs = s.q.maxMsgs := by
  cases a with
  | put c data timeout | get c data timeout =>
    simp only [step, kMsgqPut, kMsgqGet] at hr
    split_ifs at hr
    · split at hr <;> cases hr <;> rfl
    · cases hr
      rfl
    · obtain ⟨t, -, rfl⟩ := map_eq_some_iff.mp hr
      rfl
  | purge =>
    cases hr
    simp [kMsgqPurge]
  | ret t =>
    simp only [step, resume] at hr
    split at hr
    · split_ifs at hr
      cases hr
      rfl
    · cases hr
  | announce | expire t | timeout t | announced =>
    simp only [step] at hr
    split_ifs at hr
    cases hr
    rfl
  | prioritySet t prio =>
    cases hr
    rfl

theorem Inv.init (buffer : Nat → A) (msgSize : Nat) {maxMsgs : Nat} (hpos : 0 < maxMsgs)
    (prio : T → Int) : Inv (initState buffer msgSize maxMsgs prio) where
  books := ⟨by simp [initState], by simp [initState], by simp [initState, entries], by simp⟩
  waits := ⟨by simp [initState], by simp [initState], by simp [initState], by simp [initState],
    by simp [initState], by simp [initState]⟩
  wf := ⟨Nat.zero_le _, 0, hpos, by simp [initState], by simp [initState]⟩
  fifo := rfl
  unique := by simp [initState]

/-- A message queue does what a bounded queue does: in the order of the events, what the gets took and
what is in the buffer are the messages put and not purged, every call that has returned or waits has
its message among the events exactly when it succeeded, and nothing else is there. -/
structure RefinesFifo (s : State A T) : Prop where
  run : Fifo.run s.q.maxMsgs (s.history.map Event.op) = some ⟨s.q.messages, gets s.history⟩
  order : gets s.history ++ s.q.messages = survivors (s.history.map Event.op)
  returned : ∀ r ∈ s.returned, bytesOf (.thread r.caller r.k) (entries s.history) =
    if r.code = 0 then [(r.kind, r.data)] else []
  unique : (s.returned.map fun r => (r.caller, r.k)).Nodup
  pended : ∀ t c, s.call t = some c → bytesOf (s.tag (some t)) (entries s.history) =
    if c.ret = 0 then [(c.kind, c.swapData)] else []
  waiting : ∀ t ∈ s.waitQ, ∃ c, s.call t = some c ∧ c.ret = eAgain
  known : ∀ e ∈ entries s.history, (∃ t, (s.call t).isSome ∧ e.1 = s.tag (some t)) ∨
    ∃ r ∈ s.returned, e.1 = .thread r.caller r.k
  used : s.q.usedMsgs ≤ s.q.maxMsgs
  ptrs : ∃ i < s.q.maxMsgs, s.q.readPtr = i * s.q.msgSize ∧
    s.q.writePtr = (i + s.q.usedMsgs) % s.q.maxMsgs * s.q.msgSize
  apart : ∀ t ∈ s.waitQ, ∀ u ∈ s.waitQ, ∀ c d, s.call t = some c → s.call u = some d →
    c.kind = d.kind

theorem Inv.refinesFifo (h : Inv s) : RefinesFifo s where
  run := h.fifo
  order := Fifo.out_append_queue h.fifo
  returned r hr := (h.books.result r.caller r.k r (mem_map.mpr ⟨r, hr, rfl⟩)).2
  unique := h.unique
  pended t c hc := h.books.opened (some t) c hc
  waiting := h.waits.pended
  known e he := by
    rcases h.books.known e he with hf | ⟨c, hc, hf⟩ | ⟨c, k, r, hr, hf⟩ | ⟨_, hid, -⟩
    · cases hf
    · cases c with
      | none => cases hc
      | some t => exact .inl ⟨t, hc, hf⟩
    · obtain ⟨x, hx, heq⟩ := mem_map.mp hr
      obtain ⟨rfl, rfl, rfl⟩ : x.caller = c ∧ x.k = k ∧ x = r := by simpa using heq
      exact .inr ⟨x, hx, hf⟩
    · omega
  used := h.wf.used
  ptrs := h.wf.ptrs
  apart := h.waits.kinds

theorem runs_refine_fifo {buffer : Nat → A} {msgSize maxMsgs : Nat} (hpos : 1 ≤ maxMsgs)
    (hrun : GuardedRun step Allowed (initState buffer msgSize maxMsgs prio) s) :
    s.q.maxMsgs = maxMsgs ∧ RefinesFifo s := by
  have h : s.q.maxMsgs = maxMsgs ∧ Inv s :=
    hrun.invariant (P := fun s => s.q.maxMsgs = maxMsgs ∧ Inv s)
      (fun s a r h ha hr => ⟨(step_maxMsgs hr).trans h.1, h.2.step ha hr⟩)
      ⟨rfl, .init buffer msgSize hpos prio⟩
  exact ⟨h.1, h.2.refinesFifo⟩

omit [DecidableEq T] in
instance (s : State A T) (a : Act A T) : Decidable (Allowed s a) :=
  match a with
  | .put (some t) data _ | .get (some t) data _ =>
    decidable_of_iff (data.length = s.q.msgSize ∧ (s.call t).isNone ∧ s.handlingTimeouts = false)
      (by simp [Allowed])
  | .put none _ _ | .get none _ _ => inferInstanceAs (Decidable (_ ∧ _))
  | .purge | .ret _ | .announce | .expire _ | .timeout _ | .announced | .prioritySet _ _ =>
    .isTrue trivial

theorem runs_refine_fifo_three : ∃ s : State Nat (Fin 3),
    GuardedRun step Allowed (initState (fun _ => 0) 2 1 fun _ => 0) s ∧
      gets s.history = [[1, 2], [3, 4]] ∧ s.q.messages = [[5, 6]] ∧ s.waitQ = [] ∧
      s.q.maxMsgs = 1 ∧ RefinesFifo s := by
  have hrun : GuardedRun step Allowed (initState (fun _ => 0) 2 1 fun _ : Fin 3 => 0) _ :=
    .of_foldlM _ _ [.get (some 0) [0, 0] .forever, .put (some 1) [1, 2] .forever,
      .put (some 1) [3, 4] .noWait, .put (some 2) [5, 6] (.ms 5), .put (some 1) [7, 8] (.ms 1),
      .announce, .expire 1, .get none [0, 0] .noWait, .timeout 1, .announced, .ret 0, .ret 1,
      .ret 2] rfl
  exact ⟨_, hrun, rfl, rfl, rfl, runs_refine_fifo le_rfl hrun⟩

end Zephyr.MsgQ
