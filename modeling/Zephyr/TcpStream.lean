import Zephyr.Run

/-! A TCP connection: `net_tcp` with the fields of its context, the packets that wait for an
acknowledgement, and `tcp_established`. Data of the next segment is acknowledged whether or not there
is a callback, which gets all of the stream as long as it is installed when such data arrives. -/

namespace Zephyr.Tcp

abbrev Seq := BitVec 32

abbrev Byte := BitVec 8

def netTcpSeqCmp (seq1 seq2 : Seq) : Int := (seq1 - seq2).toInt

def netTcpSeqGreater (seq1 seq2 : Seq) : Bool := 0 < netTcpSeqCmp seq1 seq2

inductive TcpState where
  | closed
  | listen
  | synSent
  | synRcvd
  | established
  | closeWait
  | lastAck
  | finWait1
  | finWait2
  | timeWait
  | closing
  deriving DecidableEq

def TcpState.opening : TcpState → Bool
  | .closed | .listen | .synSent | .synRcvd => true
  | _ => false

/-- A packet on `sent_list`: what its header says, the length of its data, and whether it has been
given to the interface or has been sent by it. -/
structure TxPkt where
  seq : Seq
  fin : Bool
  appdatalen : Fin (2 ^ 16)
  queued : Bool
  sent : Bool

structure Config where
  timeWait : Bool
  retryCount : Nat

/-- The control block, the callback and the reference count of its context, whether a handler is
registered for the connection, and the timers that are running. Besides, what the callback has been
given, the changes of the state, and the sequence number of the first FIN. -/
structure Conn where
  state : TcpState
  sendSeq : Seq
  sendAck : Seq
  sentAck : Seq
  recvMaxAck : Seq
  recvWnd : Nat
  shutdown : Bool
  retrying : Bool
  retryTimeoutShift : Nat
  finSent : Bool
  finRcvd : Bool
  sentList : List TxPkt
  recvCb : Bool
  refcount : Nat
  handler : Bool
  ackTimer : Bool
  finTimer : Bool
  retryTimer : Bool
  timewaitTimer : Bool
  delivered : List Byte
  moves : List (TcpState × TcpState)
  fin : Option Seq

variable (cfg : Config) (c : Conn)

def netTcpChangeState (new : TcpState) : Conn :=
  if c.state = new then c
  else
    { c with
      state := new
      handler := if new = .closed then false else c.handler
      moves := c.moves ++ [(c.state, new)] }

def netTcpRelease : Conn :=
  { c with
    state := .closed
    sentList := []
    handler := false
    ackTimer := false
    finTimer := false
    retryTimer := false
    timewaitTimer := false }

def netContextUnref : Conn :=
  if c.refcount ≠ 1 then { c with refcount := c.refcount - 1 }
  else netTcpRelease { c with refcount := 0 }

def ackFlagged (fin : Bool) : Conn × Bool :=
  match c.state with
  | .finWait1 =>
    if fin then (netTcpChangeState c .timeWait, false) else (netTcpChangeState c .closing, false)
  | .finWait2 => (netTcpChangeState c .timeWait, fin)
  | .closeWait => (netTcpChangeState { c with shutdown := true } .lastAck, true)
  | _ => (c, fin)

def finFlagged : Conn :=
  if c.state = .established ∨ c.state = .synRcvd then netTcpChangeState c .finWait1 else c

/-- `net_tcp_prepare_segment` for a segment with these flags and `dataLen` bytes of data; `alloc`
tells whether there are buffers. The sequence number of the segment, and its FIN flag. -/
def netTcpPrepareSegment (fin ack : Bool) (dataLen : Nat) (alloc : Bool) :
    Conn × Option (Seq × Bool) :=
  let flagged := if ack then ackFlagged c fin else (c, fin)
  let fin := flagged.2
  let c := if fin then finFlagged flagged.1 else flagged.1
  let seq := if fin then c.sendSeq + 1 else c.sendSeq
  if alloc then
    ({ c with
        sendSeq := seq
        recvMaxAck := if netTcpSeqGreater seq c.recvMaxAck then seq else c.recvMaxAck
        fin := if fin then c.fin <|> some (c.sendSeq + BitVec.ofNat 32 dataLen) else c.fin },
      some (c.sendSeq, fin))
  else (c, none)

def netTcpSendPkt (fin : Bool) : Conn :=
  { c with finSent := fin || c.finSent, sentAck := c.sendAck }

variable (alloc : Bool)

def netTcpPrepareAck : Conn × Option (Seq × Bool) :=
  match c.state with
  | .finWait1 | .lastAck => netTcpPrepareSegment c true true 0 alloc
  | _ => netTcpPrepareSegment c false true 0 alloc

def sendPrepared (r : Conn × Option (Seq × Bool)) : Conn :=
  match r.2 with
  | some (_, fin) => netTcpSendPkt r.1 fin
  | none => r.1

def sendAck (force alloc : Bool) : Conn :=
  if !force && c.sendAck == c.sentAck then c else sendPrepared (netTcpPrepareAck c alloc)

def queueFin : Conn :=
  sendPrepared (netTcpPrepareSegment c true false 0 alloc)

def netTcpQueueData (len : Fin (2 ^ 16)) (alloc : Bool) : Conn :=
  let r := netTcpPrepareSegment c false true len alloc
  match r.2 with
  | some (seq, fin) =>
    { r.1 with
      sendSeq := r.1.sendSeq + BitVec.ofNat 32 len
      sentList := r.1.sentList ++ [⟨seq, fin, len, false, false⟩]
      retryTimer := true }
  | none => r.1

def netTcpSendData : Conn :=
  { c.sentList.foldl (fun c p => if !p.queued && !p.sent then netTcpSendPkt c p.fin else c) c with
    sentList := c.sentList.map fun p =>
      if !p.queued && !p.sent then { p with queued := true } else p }

def finAcked : Conn :=
  match c.state with
  | .finWait1 => netTcpChangeState c .finWait2
  | .closing => netTcpChangeState c .timeWait
  | _ => c

/-- The acknowledgement is for all of the packet, as `net_tcp_ack_received` has it. -/
def TxPkt.acked (p : TxPkt) (ack : Seq) : Bool :=
  netTcpSeqGreater ack (p.seq + BitVec.ofNat 32 p.appdatalen - 1)

def ackLoop (ack : Seq) : List TxPkt → Conn → Bool → Conn × Bool
  | [], c, valid => ({ c with sentList := [] }, valid)
  | p :: list, c, valid =>
    if p.acked ack then ackLoop ack list (if p.fin then finAcked c else c) true
    else ({ c with sentList := p :: list }, valid)

def restartTimer : Conn :=
  if c.sentList ≠ [] then { c with retrying := true, retryTimeoutShift := 0, retryTimer := true }
  else if cfg.timeWait then
    if c.finSent && c.finRcvd then { c with retryTimer := true, refcount := c.refcount + 1 } else c
  else { c with retryTimer := false, retrying := false }

def netTcpAckReceived (ack : Seq) : Conn :=
  let r := ackLoop ack c.sentList c false
  if r.2 && r.1.state == .established then
    let c := restartTimer cfg r.1
    if c.retrying then
      netTcpSendData { c with sentList := c.sentList.map fun p => { p with sent := false } }
    else c
  else r.1

inductive AppAct where
  | recv (cb : Bool)
  | updateRecvWnd (delta : Int)
  | send (len : Fin (2 ^ 16)) (alloc : Bool)
  | put (alloc : Bool)

def netContextUpdateRecvWnd (delta : Int) : Conn :=
  let new := c.recvWnd + delta
  if new < 0 ∨ 65535 < new then c else { c with recvWnd := new.toNat }

def netContextPut : Conn :=
  let c := { c with recvCb := false }
  if c.finRcvd then netContextUnref c else queueFin { c with finTimer := true } alloc

def appStep : AppAct → Option Conn
  | .recv cb =>
    if c.refcount = 0 then none else some (if c.shutdown then c else { c with recvCb := cb })
  | .updateRecvWnd delta =>
    if c.refcount = 0 then none else some (netContextUpdateRecvWnd c delta)
  | .send len alloc =>
    if c.refcount = 0 then none
    else some (if c.shutdown then c else netTcpSendData (netTcpQueueData c len alloc))
  | .put alloc => if c.refcount = 0 then none else some (netContextPut c alloc)

variable (app : List AppAct)

def callRecvCb : Option Conn :=
  if c.recvCb then app.foldlM appStep c else some c

structure Segment where
  seq : Seq
  ack : Seq
  finFlag : Bool
  rstFlag : Bool
  ackFlag : Bool
  data : List Byte
  length_lt : data.length < 2 ^ 16

variable (seg : Segment)

def netTcpValidateSeq : Bool :=
  0 ≤ netTcpSeqCmp seg.seq c.sendAck &&
    netTcpSeqCmp seg.seq (c.sendAck + BitVec.ofNat 32 c.recvWnd) < 0

def finReceived : Conn :=
  let c := match c.state with
    | .established => { netTcpChangeState c .closeWait with ackTimer := true }
    | .finWait2 => netTcpChangeState c .timeWait
    | _ => c
  { c with finRcvd := true }

def packetReceived (data : List Byte) (app : List AppAct) : Option Conn :=
  if c.recvCb then callRecvCb { c with delivered := c.delivered ++ data } app else some c

def cleanUp : Option Conn :=
  let c := if c.state = .timeWait then { c with timewaitTimer := true } else c
  if c.state = .closed then (callRecvCb c app).map netContextUnref else some c

def ackData (alloc : Bool) (app : List AppAct) : Option Conn :=
  if c.refcount = 0 then none
  else
    let c := { c with
      sendAck := c.sendAck + BitVec.ofNat 32 seg.data.length + if seg.finFlag then 1 else 0 }
    cleanUp (sendAck c false alloc) app

def tcpData (alloc : Bool) (app : List AppAct) : Option Conn :=
  if c.recvWnd < seg.data.length then some c
  else if seg.data = [] then ackData c seg alloc app
  else (packetReceived c seg.data app).bind fun c => ackData c seg alloc app

def tcpAck (ack : Seq) : Conn :=
  let c := netTcpAckReceived cfg c ack
  match c.state with
  | .finWait1 => netTcpChangeState { c with finTimer := false } .finWait2
  | .lastAck => netTcpChangeState c .closed
  | _ => c

/-- `tcp_established`. In the states in which it is called, an acknowledgement leaves the connection
closed only if it is the one of LAST_ACK. -/
def tcpEstablished (alloc : Bool) (app : List AppAct) : Option Conn :=
  if c.state.opening then some c
  else if netTcpSeqCmp seg.seq c.sendAck < 0 then some (sendAck c true alloc)
  else if 0 < netTcpSeqCmp seg.seq c.sendAck then some c
  else if seg.rstFlag then
    if netTcpValidateSeq c seg then (callRecvCb c app).map netContextUnref else some c
  else
    let c := if seg.ackFlag then tcpAck cfg c seg.ack else c
    if c.state = .closed then cleanUp c app
    else tcpData (if seg.finFlag then finReceived c else c) seg alloc app

inductive Act where
  | segment (seg : Segment) (alloc : Bool) (app : List AppAct)
  | app (a : AppAct)
  | ackTimeout
  | finTimeout
  | timewaitTimeout (app : List AppAct)
  | retryExpired (app : List AppAct)
  | transmitted (n : Nat) (ok : Bool)

def handleAckTimeout : Conn :=
  if c.state = .lastAck then netContextUnref (netTcpChangeState c .closed) else c

def handleTimewaitTimeout : Option Conn :=
  if c.state = .timeWait then (callRecvCb (netTcpChangeState c .closed) app).map netContextUnref
  else some c

def tcpRetryExpired : Option Conn :=
  match c.sentList with
  | p :: list =>
    let c := { c with retryTimeoutShift := (c.retryTimeoutShift + 1) % 32 }
    if cfg.retryCount < c.retryTimeoutShift then (callRecvCb c app).map netContextUnref
    else
      some (netTcpSendPkt { c with
        retryTimer := true
        sentList := { p with sent := false, queued := true } :: list } p.fin)
  | [] =>
    some (if cfg.timeWait && (c.finSent && c.finRcvd) then netContextUnref c else c)

def step : Act → Option Conn
  | .segment seg alloc app => if c.handler then tcpEstablished cfg c seg alloc app else some c
  | .app a => appStep c a
  | .ackTimeout =>
    if c.ackTimer then some (handleAckTimeout { c with ackTimer := false }) else none
  | .finTimeout => if c.finTimer then some (netContextUnref { c with finTimer := false }) else none
  | .timewaitTimeout app =>
    if c.timewaitTimer then handleTimewaitTimeout { c with timewaitTimer := false } app else none
  | .retryExpired app =>
    if c.retryTimer then tcpRetryExpired cfg { c with retryTimer := false } app else none
  | .transmitted n ok =>
    some { c with sentList := c.sentList.modify n fun p => { p with sent := ok, queued := false } }

structure Established (c : Conn) : Prop where
  state : c.state = .established
  sentList : c.sentList = []
  delivered : c.delivered = []
  moves : c.moves = []
  fin : c.fin = none
  finSent : c.finSent = false
  finRcvd : c.finRcvd = false
  shutdown : c.shutdown = false
  refcount : c.refcount = 1
  timers : c.ackTimer = false ∧ c.finTimer = false ∧ c.retryTimer = false ∧ c.timewaitTimer = false

open Option

variable {cfg : Config} {c c' c'' d : Conn} {seg : Segment} {alloc : Bool} {app : List AppAct}

structure Kept (c c' : Conn) : Prop where
  sendAck : c'.sendAck = c.sendAck
  delivered : c'.delivered = c.delivered
  recvCb : c'.recvCb = c.recvCb
  recvWnd : c'.recvWnd = c.recvWnd

theorem Kept.refl (c : Conn) : Kept c c := ⟨rfl, rfl, rfl, rfl⟩

theorem Kept.trans (h : Kept c c') (h' : Kept c' c'') : Kept c c'' :=
  ⟨h'.sendAck.trans h.sendAck, h'.delivered.trans h.delivered, h'.recvCb.trans h.recvCb,
    h'.recvWnd.trans h.recvWnd⟩

theorem kept_changeState (c : Conn) (new : TcpState) : Kept c (netTcpChangeState c new) := by
  unfold netTcpChangeState
  split <;> exact ⟨rfl, rfl, rfl, rfl⟩

theorem kept_unref (c : Conn) : Kept c (netContextUnref c) := by
  unfold netContextUnref
  split <;> exact ⟨rfl, rfl, rfl, rfl⟩

theorem kept_ackFlagged (c : Conn) (fin : Bool) : Kept c (ackFlagged c fin).1 := by
  unfold ackFlagged
  split
  · split <;> exact kept_changeState ..
  · exact kept_changeState ..
  · exact { kept_changeState { c with shutdown := true } .lastAck with }
  · exact .refl c

theorem kept_finFlagged (c : Conn) : Kept c (finFlagged c) := by
  unfold finFlagged
  split
  · exact kept_changeState ..
  · exact .refl c

theorem kept_prepareSegment (c : Conn) (fin ack : Bool) (dataLen : Nat) (alloc : Bool) :
    Kept c (netTcpPrepareSegment c fin ack dataLen alloc).1 := by
  unfold netTcpPrepareSegment
  generalize hf : (if ack then ackFlagged c fin else (c, fin)) = flagged
  have hflagged : Kept c flagged.1 := by
    rw [← hf]
    split
    · exact kept_ackFlagged c fin
    · exact .refl c
  have hfin : Kept c (if flagged.2 then finFlagged flagged.1 else flagged.1) := by
    split
    · exact hflagged.trans (kept_finFlagged _)
    · exact hflagged
  split <;> exact { hfin with }

theorem kept_sendPkt (c : Conn) (fin : Bool) : Kept c (netTcpSendPkt c fin) := ⟨rfl, rfl, rfl, rfl⟩

theorem kept_prepareAck (c : Conn) (alloc : Bool) : Kept c (netTcpPrepareAck c alloc).1 := by
  unfold netTcpPrepareAck
  split <;> exact kept_prepareSegment ..

theorem kept_sendPrepared {r : Conn × Option (Seq × Bool)} (h : Kept c r.1) :
    Kept c (sendPrepared r) := by
  unfold sendPrepared
  split
  · exact h.trans (kept_sendPkt ..)
  · exact h

theorem kept_sendAck (c : Conn) (force alloc : Bool) : Kept c (sendAck c force alloc) := by
  unfold sendAck
  split
  · exact .refl c
  · exact kept_sendPrepared (kept_prepareAck c alloc)

theorem kept_queueFin (c : Conn) (alloc : Bool) : Kept c (queueFin c alloc) :=
  kept_sendPrepared (kept_prepareSegment ..)

theorem kept_queueData (c : Conn) (len : Fin (2 ^ 16)) (alloc : Bool) :
    Kept c (netTcpQueueData c len alloc) := by
  have h := kept_prepareSegment c false true len alloc
  unfold netTcpQueueData
  dsimp only
  split
  · exact { h with }
  · exact h

theorem sendData_eq (c : Conn) : ∃ finSent sentAck, netTcpSendData c = { c with
    finSent, sentAck, sentList := c.sentList.map fun p =>
      if !p.queued && !p.sent then { p with queued := true } else p } := by
  have h : ∀ (list : List TxPkt) (c : Conn), ∃ finSent sentAck, list.foldl (fun c p =>
      if !p.queued && !p.sent then netTcpSendPkt c p.fin else c) c =
        { c with finSent, sentAck } := by
    intro list
    induction list with
    | nil => exact fun c => ⟨c.finSent, c.sentAck, rfl⟩
    | cons p list ih =>
      intro c
      obtain ⟨finSent, sentAck, h⟩ := ih (if !p.queued && !p.sent then netTcpSendPkt c p.fin else c)
      refine ⟨finSent, sentAck, h.trans ?_⟩
      split <;> rfl
  obtain ⟨finSent, sentAck, h⟩ := h c.sentList c
  exact ⟨finSent, sentAck, by rw [netTcpSendData, h]⟩

theorem kept_sendData (c : Conn) : Kept c (netTcpSendData c) := by
  obtain ⟨_, _, h⟩ := sendData_eq c
  rw [h]
  exact ⟨rfl, rfl, rfl, rfl⟩

theorem kept_finAcked (c : Conn) : Kept c (finAcked c) := by
  unfold finAcked
  split
  · exact kept_changeState ..
  · exact kept_changeState ..
  · exact .refl c

theorem kept_ackLoop (ack : Seq) (list : List TxPkt) (c : Conn) (valid : Bool) :
    Kept c (ackLoop ack list c valid).1 := by
  induction list generalizing c valid with
  | nil => exact ⟨rfl, rfl, rfl, rfl⟩
  | cons p list ih =>
    rw [ackLoop]
    split
    · refine .trans ?_ (ih _ _)
      split
      · exact kept_finAcked c
      · exact .refl c
    · exact ⟨rfl, rfl, rfl, rfl⟩

theorem kept_restartTimer (cfg : Config) (c : Conn) : Kept c (restartTimer cfg c) := by
  unfold restartTimer
  split_ifs <;> exact ⟨rfl, rfl, rfl, rfl⟩

theorem kept_ackReceived (cfg : Config) (c : Conn) (ack : Seq) :
    Kept c (netTcpAckReceived cfg c ack) := by
  have hloop := kept_ackLoop ack c.sentList c false
  have htimer := hloop.trans (kept_restartTimer cfg _)
  unfold netTcpAckReceived
  dsimp only
  split
  · split
    · exact htimer.trans { kept_sendData _ with }
    · exact htimer
  · exact hloop

theorem kept_tcpAck (cfg : Config) (c : Conn) (ack : Seq) : Kept c (tcpAck cfg c ack) := by
  have h := kept_ackReceived cfg c ack
  unfold tcpAck
  dsimp only
  split
  · exact h.trans { kept_changeState .. with }
  · exact h.trans (kept_changeState ..)
  · exact h

theorem kept_finReceived (c : Conn) : Kept c (finReceived c) := by
  unfold finReceived
  split
  · exact (kept_changeState c .closeWait).trans ⟨rfl, rfl, rfl, rfl⟩
  · exact (kept_changeState c .timeWait).trans ⟨rfl, rfl, rfl, rfl⟩
  · exact ⟨rfl, rfl, rfl, rfl⟩

structure Quiet (c c' : Conn) : Prop where
  sendAck : c'.sendAck = c.sendAck
  delivered : c'.delivered = c.delivered

theorem Quiet.refl (c : Conn) : Quiet c c := ⟨rfl, rfl⟩

theorem Quiet.trans (h : Quiet c c') (h' : Quiet c' c'') : Quiet c c'' :=
  ⟨h'.sendAck.trans h.sendAck, h'.delivered.trans h.delivered⟩

theorem Kept.quiet (h : Kept c c') : Quiet c c' := ⟨h.sendAck, h.delivered⟩

theorem quiet_appStep {a : AppAct} (h : appStep c a = some c') : Quiet c c' := by
  cases a <;> rw [appStep] at h <;> split_ifs at h <;> cases h
  · exact .refl c
  · exact ⟨rfl, rfl⟩
  · unfold netContextUpdateRecvWnd
    dsimp only
    split <;> exact ⟨rfl, rfl⟩
  · exact .refl c
  · exact ((kept_queueData ..).trans (kept_sendData _)).quiet
  · unfold netContextPut
    dsimp only
    split
    · exact { kept_unref _ with }
    · exact { kept_queueFin .. with }

theorem quiet_callRecvCb (h : callRecvCb c app = some c') : Quiet c c' := by
  unfold callRecvCb at h
  split at h
  · exact run_invariant (P := Quiet c) (fun _ _ _ hq hs => hq.trans (quiet_appStep hs)) (.refl c) h
  · exact some.inj h ▸ .refl c

theorem quiet_callRecvCb_unref (h : (callRecvCb c app).map netContextUnref = some c') :
    Quiet c c' := by
  obtain ⟨d, hd, rfl⟩ := map_eq_some_iff.mp h
  exact (quiet_callRecvCb hd).trans (kept_unref d).quiet

theorem quiet_cleanUp (h : cleanUp c app = some c') : Quiet c c' := by
  unfold cleanUp at h
  dsimp only at h
  split at h <;> split at h
  · exact { quiet_callRecvCb_unref h with }
  · exact some.inj h ▸ ⟨rfl, rfl⟩
  · exact quiet_callRecvCb_unref h
  · exact some.inj h ▸ .refl c

theorem state_sendData (c : Conn) : (netTcpSendData c).state = c.state := by
  obtain ⟨_, _, h⟩ := sendData_eq c
  rw [h]

theorem state_restartTimer (cfg : Config) (c : Conn) : (restartTimer cfg c).state = c.state := by
  unfold restartTimer
  split_ifs <;> rfl

theorem state_changeState (c : Conn) (new : TcpState) : (netTcpChangeState c new).state = new := by
  unfold netTcpChangeState
  split
  · assumption
  · rfl

theorem sendSeq_changeState (c : Conn) (new : TcpState) :
    (netTcpChangeState c new).sendSeq = c.sendSeq ∧
      (netTcpChangeState c new).sentList = c.sentList := by
  unfold netTcpChangeState
  split <;> exact ⟨rfl, rfl⟩

theorem prepareSegment_spec (c : Conn) (fin ack : Bool) (n : Nat) (alloc : Bool) :
    (netTcpPrepareSegment c fin ack n alloc).1.sentList = c.sentList ∧
      (((netTcpPrepareSegment c fin ack n alloc).2 = none ∧
        (netTcpPrepareSegment c fin ack n alloc).1.sendSeq = c.sendSeq) ∨
      ∃ f, (netTcpPrepareSegment c fin ack n alloc).2 = some (c.sendSeq, f) ∧
        (netTcpPrepareSegment c fin ack n alloc).1.sendSeq =
          c.sendSeq + BitVec.ofNat 32 f.toNat) := by
  have hflagged : ∀ r, (if ack then ackFlagged c fin else (c, fin)) = r →
      r.1.sendSeq = c.sendSeq ∧ r.1.sentList = c.sentList := by
    rintro r rfl
    split
    · unfold ackFlagged
      split
      · split <;> exact sendSeq_changeState ..
      · exact sendSeq_changeState ..
      · exact sendSeq_changeState { c with shutdown := true } .lastAck
      · exact ⟨rfl, rfl⟩
    · exact ⟨rfl, rfl⟩
  have hfin : ∀ d : Conn, (finFlagged d).sendSeq = d.sendSeq ∧
      (finFlagged d).sentList = d.sentList := by
    intro d
    unfold finFlagged
    split
    · exact sendSeq_changeState ..
    · exact ⟨rfl, rfl⟩
  unfold netTcpPrepareSegment
  generalize hr : (if ack then ackFlagged c fin else (c, fin)) = r
  obtain ⟨hseq, hlist⟩ := hflagged r hr
  obtain ⟨d, f⟩ := r
  dsimp only at hseq hlist ⊢
  cases f <;> cases alloc <;> simp [hfin, hseq, hlist]

inductive FinAcked : TcpState → TcpState → Prop
  | same (s : TcpState) : FinAcked s s
  | finWait : FinAcked .finWait1 .finWait2
  | closing : FinAcked .closing .timeWait

theorem state_finAcked (c : Conn) : FinAcked c.state (finAcked c).state := by
  unfold finAcked
  split
  · next h =>
    rw [h, state_changeState]
    exact .finWait
  · next h =>
    rw [h, state_changeState]
    exact .closing
  · exact .same _

theorem FinAcked.trans {s t u : TcpState} (h : FinAcked s t) (h' : FinAcked t u) :
    FinAcked s u := by
  cases h with
  | same => exact h'
  | finWait =>
    cases h'
    exact .finWait
  | closing =>
    cases h'
    exact .closing

theorem state_ackLoop (ack : Seq) (list : List TxPkt) (c : Conn) (valid : Bool) :
    FinAcked c.state (ackLoop ack list c valid).1.state := by
  induction list generalizing c valid with
  | nil => exact .same _
  | cons p list ih =>
    rw [ackLoop]
    split
    · refine .trans ?_ (ih _ _)
      split
      · exact state_finAcked c
      · exact .same _
    · exact .same _

theorem state_ackReceived (cfg : Config) (c : Conn) (ack : Seq) :
    FinAcked c.state (netTcpAckReceived cfg c ack).state := by
  have h := state_ackLoop ack c.sentList c false
  unfold netTcpAckReceived
  dsimp only
  split
  · split
    · rw [state_sendData]
      rw [state_restartTimer]
      exact h
    · rw [state_restartTimer]
      exact h
  · exact h

def ackedState : TcpState → TcpState
  | .finWait1 => .finWait2
  | .lastAck => .closed
  | s => s

theorem state_tcpAck (cfg : Config) (c : Conn) (ack : Seq) :
    (tcpAck cfg c ack).state = ackedState (netTcpAckReceived cfg c ack).state := by
  unfold tcpAck
  dsimp only
  split
  · next h => rw [state_changeState, h, ackedState]
  · next h => rw [state_changeState, h, ackedState]
  · next h1 h2 =>
    unfold ackedState
    split <;> simp_all

theorem FinAcked.ackedState_eq_closed {s t : TcpState} (h : FinAcked s t)
    (hs : s.opening = false) : ackedState t = .closed ↔ s = .lastAck := by
  cases h with
  | same => cases s <;> simp [ackedState, TcpState.opening] at *
  | finWait => simp [ackedState]
  | closing => simp [ackedState]

theorem tcpAck_closed_iff (h : c.state.opening = false) (ack : Seq) :
    (tcpAck cfg c ack).state = .closed ↔ c.state = .lastAck := by
  rw [state_tcpAck]
  exact (state_ackReceived cfg c ack).ackedState_eq_closed h

theorem netTcpSeqCmp_eq_zero {a b : Seq} : netTcpSeqCmp a b = 0 ↔ a = b := by
  unfold netTcpSeqCmp
  rw [← BitVec.toInt_zero, BitVec.toInt_inj, BitVec.sub_eq_iff_eq_add, BitVec.zero_add]

structure Next (c : Conn) (seg : Segment) : Prop where
  opened : c.state.opening = false
  seq : seg.seq = c.sendAck
  rst : seg.rstFlag = false

theorem tcpEstablished_of_not_next (hnot : ¬ Next c seg)
    (h : tcpEstablished cfg c seg alloc app = some c') :
    c' = c ∨ c' = sendAck c true alloc ∨ (callRecvCb c app).map netContextUnref = some c' := by
  unfold tcpEstablished at h
  split at h
  · exact .inl (some.inj h).symm
  next hopen =>
  split at h
  · exact .inr (.inl (some.inj h).symm)
  split at h
  · exact .inl (some.inj h).symm
  split at h
  · split at h
    · exact .inr (.inr h)
    · exact .inl (some.inj h).symm
  · next hrst =>
    have hseq : seg.seq = c.sendAck := netTcpSeqCmp_eq_zero.mp (by omega)
    exact absurd ⟨by simpa using hopen, hseq, by simpa using hrst⟩ hnot

theorem tcpEstablished_of_next (hnext : Next c seg) : tcpEstablished cfg c seg alloc app =
      let d := if seg.ackFlag then tcpAck cfg c seg.ack else c
      if d.state = .closed then cleanUp d app
      else tcpData (if seg.finFlag then finReceived d else d) seg alloc app := by
  have hcmp := netTcpSeqCmp_eq_zero.mpr hnext.seq
  rw [tcpEstablished, hnext.opened, hcmp, hnext.rst]
  rfl

def freshConn (recvCb : Bool) : Conn where
  state := .established
  sendSeq := 100#32
  sendAck := 500#32
  sentAck := 500#32
  recvMaxAck := 101#32
  recvWnd := 1280
  shutdown := false
  retrying := false
  retryTimeoutShift := 0
  finSent := false
  finRcvd := false
  sentList := []
  recvCb := recvCb
  refcount := 1
  handler := true
  ackTimer := false
  finTimer := false
  retryTimer := false
  timewaitTimer := false
  delivered := []
  moves := []
  fin := none

theorem established_freshConn (recvCb : Bool) : Established (freshConn recvCb) :=
  ⟨rfl, rfl, rfl, rfl, rfl, rfl, rfl, rfl, rfl, rfl, rfl, rfl, rfl⟩

open List

structure Peer where
  stream : List Byte
  irs : Seq

structure FromPeer (peer : Peer) (seg : Segment) (pos : Nat) : Prop where
  seq : seg.seq = peer.irs + BitVec.ofNat 32 pos
  data : seg.data <+: peer.stream.drop pos
  fin : seg.finFlag = true → pos + seg.data.length = peer.stream.length

/-- The callback has been given the bytes of the stream up to the acknowledgement number, in which
the FIN counts for one. -/
def Delivered (peer : Peer) (c : Conn) : Prop :=
  ∃ n ≤ peer.stream.length, c.delivered = peer.stream.take n ∧
    (c.sendAck = peer.irs + BitVec.ofNat 32 n ∨
      n = peer.stream.length ∧ c.sendAck = peer.irs + BitVec.ofNat 32 (n + 1))

/-- A segment that arrives is one of the peer, less than half of the sequence numbers away from
what has been received. -/
def Arrives (peer : Peer) (c : Conn) : Act → Prop
  | .segment seg _ _ => ∃ pos, FromPeer peer seg pos ∧ pos < c.delivered.length + 2 ^ 31 ∧
      c.delivered.length < pos + 2 ^ 31
  | _ => True

structure Taken (c : Conn) (seg : Segment) : Prop where
  handler : c.handler = true
  opened : c.state.opening = false
  next : seg.seq = c.sendAck
  rst : seg.rstFlag = false
  open_ : seg.ackFlag = true → c.state ≠ .lastAck
  fits : seg.data.length ≤ c.recvWnd

def Heard (c : Conn) : Act → Prop
  | .segment seg _ _ => Taken c seg → seg.data ≠ [] → c.recvCb = true
  | _ => True

theorem quiet_tcpData (hnot : ¬ seg.data.length ≤ c.recvWnd)
    (h : tcpData c seg alloc app = some c') : Quiet c c' := by
  rw [tcpData, if_pos (by omega)] at h
  exact some.inj h ▸ .refl c

theorem packetReceived_spec {data : List Byte} (h : packetReceived c data app = some c') :
    c'.sendAck = c.sendAck ∧ c'.delivered = c.delivered ++ if c.recvCb then data else [] := by
  unfold packetReceived at h
  split at h
  · next hcb =>
    have hq := quiet_callRecvCb h
    exact ⟨hq.sendAck, by rw [hq.delivered, if_pos hcb]⟩
  · next hcb =>
    cases h
    exact ⟨rfl, by rw [if_neg hcb, append_nil]⟩

theorem ackData_spec (h : ackData c seg alloc app = some c') :
    c'.sendAck = c.sendAck + BitVec.ofNat 32 seg.data.length + (if seg.finFlag then 1 else 0) ∧
      c'.delivered = c.delivered := by
  unfold ackData at h
  split at h
  · exact nomatch h
  · have hq := (kept_sendAck _ false alloc).quiet.trans (quiet_cleanUp h)
    exact ⟨hq.sendAck, hq.delivered⟩

theorem tcpData_spec (hfits : seg.data.length ≤ c.recvWnd) (h : tcpData c seg alloc app = some c') :
    c'.sendAck = c.sendAck + BitVec.ofNat 32 seg.data.length + (if seg.finFlag then 1 else 0) ∧
      c'.delivered = c.delivered ++ if c.recvCb then seg.data else [] := by
  rw [tcpData, if_neg (by omega)] at h
  split at h
  · next hnil =>
    obtain ⟨hack, hdel⟩ := ackData_spec h
    refine ⟨hack, hdel.trans ?_⟩
    rw [hnil]
    simp
  · obtain ⟨d, hd, h⟩ := bind_eq_some_iff.mp h
    obtain ⟨hd, hdata⟩ := packetReceived_spec hd
    obtain ⟨hack, hdel⟩ := ackData_spec h
    exact ⟨hack.trans (by rw [hd]), hdel.trans hdata⟩

theorem tcpEstablished_spec (hhandler : c.handler = true)
    (h : tcpEstablished cfg c seg alloc app = some c') :
    (¬ Taken c seg ∧ Quiet c c') ∨ (Taken c seg ∧
      c'.sendAck = c.sendAck + BitVec.ofNat 32 seg.data.length + (if seg.finFlag then 1 else 0) ∧
      c'.delivered = c.delivered ++ if c.recvCb then seg.data else []) := by
  by_cases hnext : Next c seg
  case neg =>
    refine .inl ⟨fun ht => hnext ⟨ht.opened, ht.next, ht.rst⟩, ?_⟩
    rcases tcpEstablished_of_not_next hnext h with h | h | h
    · exact h ▸ .refl c
    · exact h ▸ (kept_sendAck c true alloc).quiet
    · exact quiet_callRecvCb_unref h
  rw [tcpEstablished_of_next hnext] at h
  dsimp only at h
  have hack : Kept c (if seg.ackFlag then tcpAck cfg c seg.ack else c) := by
    split
    · exact kept_tcpAck ..
    · exact .refl c
  have hclosed : (if seg.ackFlag then tcpAck cfg c seg.ack else c).state = .closed ↔
      seg.ackFlag = true ∧ c.state = .lastAck := by
    split
    · next hf => rw [tcpAck_closed_iff hnext.opened, hf, eq_self, true_and]
    · next hf =>
      refine iff_of_false (fun hc => ?_) fun hc => hf hc.1
      have hopen := hnext.opened
      rw [hc] at hopen
      exact nomatch hopen
  generalize (if seg.ackFlag then tcpAck cfg c seg.ack else c) = d at h hack hclosed
  split at h
  · next hc =>
    obtain ⟨hf, hlast⟩ := hclosed.mp hc
    exact .inl ⟨fun ht => ht.open_ hf hlast, hack.quiet.trans (quiet_cleanUp h)⟩
  next hc =>
  have hfin : Kept c (if seg.finFlag then finReceived d else d) := by
    split
    · exact hack.trans (kept_finReceived d)
    · exact hack
  by_cases hfits : seg.data.length ≤ c.recvWnd
  · have ht : Taken c seg :=
      ⟨hhandler, hnext.opened, hnext.seq, hnext.rst, fun hf hl => hc (hclosed.mpr ⟨hf, hl⟩), hfits⟩
    have hdata := tcpData_spec (hfin.recvWnd ▸ hfits) h
    rw [hfin.sendAck, hfin.delivered, hfin.recvCb] at hdata
    exact .inr ⟨ht, hdata⟩
  · exact .inl ⟨fun ht => hfits ht.fits, hfin.quiet.trans (quiet_tcpData (hfin.recvWnd ▸ hfits) h)⟩

theorem quiet_step {a : Act} (ha : ∀ seg alloc app, a ≠ .segment seg alloc app)
    (h : step cfg c a = some c') : Quiet c c' := by
  cases a with
  | segment seg alloc app => exact absurd rfl (ha seg alloc app)
  | app a => exact quiet_appStep h
  | ackTimeout =>
    rw [step] at h
    split_ifs at h
    cases h
    unfold handleAckTimeout
    split
    · exact { (kept_changeState _ .closed).trans (kept_unref _) with }
    · exact ⟨rfl, rfl⟩
  | finTimeout =>
    rw [step] at h
    split_ifs at h
    exact some.inj h ▸ { kept_unref _ with }
  | timewaitTimeout app =>
    rw [step] at h
    split_ifs at h
    unfold handleTimewaitTimeout at h
    split at h
    · have hq := (kept_changeState _ _).quiet.trans (quiet_callRecvCb_unref h)
      exact { hq with }
    · exact some.inj h ▸ ⟨rfl, rfl⟩
  | retryExpired app =>
    rw [step] at h
    split_ifs at h
    unfold tcpRetryExpired at h
    split at h
    · dsimp only at h
      split at h
      · have hq := quiet_callRecvCb_unref h
        exact { hq with }
      · exact some.inj h ▸ ⟨rfl, rfl⟩
    · cases h
      split
      · exact { kept_unref _ with }
      · exact ⟨rfl, rfl⟩
  | transmitted n ok => exact some.inj h ▸ ⟨rfl, rfl⟩

theorem add_ofNat_inj {irs : Seq} {m n : Nat} :
    irs + BitVec.ofNat 32 m = irs + BitVec.ofNat 32 n ↔ m % 2 ^ 32 = n % 2 ^ 32 := by
  rw [BitVec.add_right_inj, ← BitVec.toNat_inj, BitVec.toNat_ofNat, BitVec.toNat_ofNat]

theorem add_ofNat_fin (irs : Seq) (n len : Nat) (fin : Bool) :
    irs + BitVec.ofNat 32 n + BitVec.ofNat 32 len + (if fin then 1 else 0) =
      irs + BitVec.ofNat 32 (n + len + fin.toNat) := by
  cases fin <;> simp [BitVec.ofNat_add, BitVec.add_assoc]

variable {peer : Peer}

theorem Delivered.of_quiet (h : Delivered peer c) (hq : Quiet c c') : Delivered peer c' := by
  unfold Delivered
  rw [hq.sendAck, hq.delivered]
  exact h

theorem delivered_next {n : Nat} (hn : n ≤ peer.stream.length) (hseg : FromPeer peer seg n)
    (hack : c'.sendAck = peer.irs + BitVec.ofNat 32 (n + seg.data.length + seg.finFlag.toNat))
    (hdel : c'.delivered = peer.stream.take n ++ seg.data) : Delivered peer c' := by
  have hlen : seg.data.length ≤ peer.stream.length - n := by
    rw [← length_drop]
    exact hseg.data.length_le
  refine ⟨n + seg.data.length, by omega, ?_, ?_⟩
  · rw [hdel, take_add, ← prefix_iff_eq_take.mp hseg.data]
  · cases hf : seg.finFlag with
    | false => exact .inl (by rw [hack, hf]; rfl)
    | true => exact .inr ⟨hseg.fin hf, by rw [hack, hf]; rfl⟩

theorem not_delivered_next {n : Nat} (hn : n ≤ peer.stream.length)
    (hseg : FromPeer peer seg n) (hdata : seg.data ≠ [])
    (hack : c'.sendAck = peer.irs + BitVec.ofNat 32 (n + seg.data.length + seg.finFlag.toNat))
    (hdel : c'.delivered = peer.stream.take n) : ¬ Delivered peer c' := by
  have hpos := length_pos_of_ne_nil hdata
  have hlt := seg.length_lt
  have hfin := seg.finFlag.toNat_le
  have hlen : seg.data.length ≤ peer.stream.length - n := by
    rw [← length_drop]
    exact hseg.data.length_le
  rintro ⟨k, hk, htake, hk'⟩
  obtain rfl : n = k := by
    have := congrArg length (hdel.symm.trans htake)
    rw [length_take, length_take] at this
    omega
  rcases hk' with hk' | ⟨hend, -⟩
  · have := add_ofNat_inj.mp (hack.symm.trans hk')
    omega
  · omega

theorem delivered_step {a : Act} (h : Delivered peer c) (harr : Arrives peer c a)
    (hstep : step cfg c a = some c') : Delivered peer c' ↔ Heard c a := by
  cases a with
  | segment seg alloc app =>
    obtain ⟨pos, hseg, hlow, hhigh⟩ := harr
    rw [step] at hstep
    split at hstep
    · next hhandler =>
      obtain ⟨hnot, hq⟩ | ⟨ht, hack, hdel⟩ := tcpEstablished_spec hhandler hstep
      · exact iff_of_true (h.of_quiet hq) fun ht => absurd ht hnot
      obtain ⟨n, hn, htake, hpos⟩ := h
      have hlen : c.delivered.length = n := by
        rw [htake, length_take]
        omega
      have hseq := hseg.seq.symm.trans ht.next
      rcases hpos with hpos | ⟨rfl, hpos⟩
      · obtain rfl : pos = n := by
          have := add_ofNat_inj.mp (hseq.trans hpos)
          omega
        rw [hpos, add_ofNat_fin] at hack
        cases hcb : c.recvCb with
        | true =>
          rw [hcb, htake] at hdel
          exact iff_of_true (delivered_next hn hseg hack hdel) fun _ _ => hcb
        | false =>
          rw [hcb, htake] at hdel
          by_cases hdata : seg.data = []
          · refine iff_of_true (delivered_next hn hseg hack ?_) fun _ hne => absurd hdata hne
            rw [hdel, hdata]
            rfl
          · refine iff_of_false (not_delivered_next hn hseg hdata hack ?_) fun hh => ?_
            · rw [hdel]
              exact append_nil _
            · exact absurd (hcb.symm.trans (hh ht hdata)) (by decide)
      · -- behind the FIN there is nothing
        obtain rfl : pos = peer.stream.length + 1 := by
          have := add_ofNat_inj.mp (hseq.trans hpos)
          omega
        have hdata : seg.data = [] := by
          have hprefix := hseg.data
          rw [drop_eq_nil_of_le (Nat.le_succ _)] at hprefix
          exact prefix_nil.mp hprefix
        have hfin : seg.finFlag = false := by
          refine Bool.eq_false_iff.mpr fun hf => ?_
          have := hseg.fin hf
          omega
        have hq : Quiet c c' := by
          rw [hdata, hfin] at hack
          rw [hdata] at hdel
          exact ⟨by simpa using hack, by simpa using hdel⟩
        refine iff_of_true ?_ fun _ hne => absurd hdata hne
        exact Delivered.of_quiet ⟨_, hn, htake, .inr ⟨rfl, hpos⟩⟩ hq
    · cases hstep
      refine iff_of_true h fun ht => ?_
      exact absurd ht.handler ‹_›
  | _ => exact iff_of_true (h.of_quiet (quiet_step (by simp) hstep)) trivial

def fiveBytes : Peer := ⟨[1#8, 2#8, 3#8, 4#8, 5#8], 500#32⟩

def firstThree : Segment := ⟨500#32, 100#32, false, false, true, [1#8, 2#8, 3#8], by decide⟩

theorem fromPeer_firstThree : FromPeer fiveBytes firstThree 0 := ⟨rfl, by decide, by decide⟩

def afterThree : Conn :=
  (step ⟨false, 9⟩ (freshConn true) (.segment firstThree true [])).getD (freshConn true)

end Zephyr.Tcp
