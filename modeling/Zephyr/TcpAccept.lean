import Zephyr.TcpStream

/-! Listening contexts. A SYN is answered with the control block of the listener and remembered in a
backlog that all of them share; the acknowledgement of the answer makes a new connection from what
the backlog has of the remote, whose entry it may be. -/

namespace Zephyr.TcpAccept

open Tcp Function

inductive IpAddr where
  | v4 (addr : BitVec 32)
  | v6 (addr : BitVec 128)
  deriving DecidableEq

structure Endpoint where
  addr : IpAddr
  port : BitVec 16
  deriving DecidableEq

structure Packet where
  iface : Nat
  src : Endpoint
  seq : Seq
  ack : Seq
  flags : BitVec 6
  opts : List Byte

def netTcpSyn : BitVec 6 := 0x02

def netTcpRst : BitVec 6 := 0x04

def netTcpAckFlag : BitVec 6 := 0x10

def netTcpDefaultMss : BitVec 16 := 536

def parseOpts : Nat → List Byte → BitVec 16 → Option (BitVec 16)
  | 0, _, mss => some mss
  | _, [], mss => some mss
  | rounds + 1, opt :: rest, mss =>
    if opt = 0 then some mss
    else if opt = 1 then parseOpts rounds rest mss
    else
      match rest with
      | [] => none
      | optlen :: rest =>
        if optlen.toNat < 2 ∨ rest.length < optlen.toNat - 2 then none
        else if opt = 2 then
          if optlen.toNat - 2 ≠ 2 then none
          else parseOpts rounds (rest.drop 2) (rest.headD 0 ++ (rest.drop 1).headD 0)
        else parseOpts rounds (rest.drop (optlen.toNat - 2)) mss

def netTcpParseOpts (opts : List Byte) : Option (BitVec 16) :=
  parseOpts opts.length opts netTcpDefaultMss

/-- An entry of `tcp_backlog`; the control block of the listener is told by its place. -/
structure Entry where
  tcp : Nat
  remote : Endpoint
  recvMaxAck : Seq
  sendSeq : Seq
  sendAck : Seq
  sendMss : BitVec 16

def findFrom (src : Endpoint) : List (Option Entry) → Nat → Option Nat → Except (Option Nat) Nat
  | [], _, empty => .error empty
  | none :: rest, i, empty => findFrom src rest (i + 1) (empty <|> some i)
  | some e :: rest, i, empty =>
    if e.remote = src then .ok i else findFrom src rest (i + 1) empty

variable (backlog : List (Option Entry))

def tcpBacklogFind (src : Endpoint) : Except (Option Nat) Nat :=
  findFrom src backlog 0 none

def newEntry (pkt : Packet) (l : Nat) (tcp : Conn) (sendMss : BitVec 16) : Entry :=
  ⟨l, pkt.src, tcp.recvMaxAck, tcp.sendSeq, tcp.sendAck, sendMss⟩

/-- `tcp_backlog_syn`; there is no new backlog if the remote has an entry or there is no room. -/
def tcpBacklogSyn (pkt : Packet) (l : Nat) (tcp : Conn)
    (sendMss : BitVec 16) : Option (List (Option Entry)) :=
  match tcpBacklogFind backlog pkt.src with
  | .ok _ => none
  | .error none => none
  | .error (some i) => some (backlog.set i (some (newEntry pkt l tcp sendMss)))

structure NewTcp where
  recvMaxAck : Seq
  sendSeq : Seq
  sendAck : Seq
  sendMss : BitVec 16

def Entry.newTcp (e : Entry) : NewTcp := ⟨e.recvMaxAck, e.sendSeq + 1, e.sendAck, e.sendMss⟩

def tcpBacklogAck (pkt : Packet) : Option (NewTcp × List (Option Entry)) :=
  match tcpBacklogFind backlog pkt.src with
  | .error _ => none
  | .ok i =>
    match (backlog[i]?).join with
    | none => none
    | some e => if e.sendSeq + 1 ≠ pkt.ack then none else some (e.newTcp, backlog.set i none)

def tcpBacklogRst (pkt : Packet) : List (Option Entry) :=
  match tcpBacklogFind backlog pkt.src with
  | .error _ => backlog
  | .ok i =>
    match (backlog[i]?).join with
    | none => backlog
    | some e => if e.sendAck ≠ pkt.seq then backlog else backlog.set i none

structure Listener where
  id : Nat
  tcp : Conn
  acceptCb : Bool
  iface : Nat

structure Exchange where
  listener : Nat
  syn : Packet
  seq : Seq
  ack : Seq

structure Accepted where
  listener : Nat
  pkt : Packet
  remote : Endpoint
  tcp : NewTcp

structure Stack where
  listeners : Nat → Option Listener
  backlog : List (Option Entry)
  born : Nat
  answered : List Exchange
  accepted : List Accepted

/-- What the rest of the system does while a segment is handled: the initial sequence number,
whether the answer is allocated and sent, and whether there is a context for the new connection and
it can be bound and registered. -/
structure Env where
  isn : Seq
  alloc : Bool
  sent : Bool
  ctx : Bool
  bound : Bool
  registered : Bool

variable (s : Stack) (l : Nat) (lis : Listener)

def Stack.setListener : Stack :=
  { s with listeners := update s.listeners l (some lis) }

variable (pkt : Packet)

def sendSynAck (env : Env) : Stack :=
  let r := netTcpPrepareSegment lis.tcp false true 0 env.alloc
  match r.2 with
  | none => s.setListener l { lis with tcp := r.1 }
  | some (seq, _) =>
    if env.sent then
      { s.setListener l { lis with tcp := { r.1 with sendSeq := r.1.sendSeq + 1 } } with
        answered := s.answered ++ [⟨lis.id, pkt, seq, r.1.sendAck⟩] }
    else s.setListener l { lis with tcp := r.1 }

def Listener.answering (isn : Seq) : Listener :=
  { lis with
    tcp := { netTcpChangeState lis.tcp .synRcvd with
      sendSeq := isn
      sendAck := pkt.seq + 1
      recvMaxAck := isn + 1 } }

def synReceived (env : Env) : Stack :=
  match netTcpParseOpts pkt.opts with
  | none => s
  | some mss =>
    let lis := lis.answering pkt env.isn
    let s := s.setListener l lis
    match tcpBacklogSyn s.backlog pkt l lis.tcp mss with
    | none => s
    | some backlog => sendSynAck { s with backlog } l lis pkt env

def ackReceived (env : Env) : Stack :=
  if !lis.acceptCb || !env.ctx then s
  else
    match tcpBacklogAck s.backlog pkt with
    | none => s
    | some (tcp, backlog) =>
      let s := { s with backlog }
      if !env.bound || !env.registered then s
      else
        { s.setListener l { lis with tcp := netTcpChangeState lis.tcp .listen } with
          accepted := s.accepted ++ [⟨lis.id, pkt, pkt.src, tcp⟩] }

def handleSegment (env : Env) : Stack :=
  let s := s.setListener l lis
  if pkt.flags = netTcpSyn then synReceived s l lis pkt env
  else if pkt.flags = netTcpRst then { s with backlog := tcpBacklogRst s.backlog pkt }
  else if pkt.flags = netTcpAckFlag then ackReceived s l lis pkt env
  else s

def tcpSynRcvd (env : Env) : Stack :=
  match lis.tcp.state with
  | .listen => handleSegment s l { lis with iface := pkt.iface } pkt env
  | .synRcvd => if pkt.iface ≠ lis.iface then s else handleSegment s l lis pkt env
  | _ => s

/-- A context starts to listen or is given an accept callback, a packet is given to a listener, the
timer of an entry expires, or the last reference to a listener is given up. -/
inductive Act where
  | listen (l : Nat) (tcp : Conn) (acceptCb : Bool) (iface : Nat)
  | accept (l : Nat) (acceptCb : Bool)
  | segment (l : Nat) (pkt : Packet) (env : Env)
  | timeout (i : Nat)
  | release (l : Nat)

def clearBacklog : List (Option Entry) :=
  backlog.map fun e => e.filter (·.tcp ≠ l)

def step : Act → Option Stack
  | .listen l tcp acceptCb iface =>
    if s.listeners l = none ∧ tcp.state = .listen then
      some { s.setListener l ⟨s.born, tcp, acceptCb, iface⟩ with born := s.born + 1 }
    else none
  | .accept l acceptCb => (s.listeners l).map fun lis =>
      if lis.tcp.state = .listen then s.setListener l { lis with acceptCb } else s
  | .segment l pkt env => (s.listeners l).map fun lis => tcpSynRcvd s l lis pkt env
  | .timeout i => some { s with backlog := s.backlog.set i none }
  | .release l => some { s with
      listeners := update s.listeners l none
      backlog := clearBacklog s.backlog l }

def initial (size : Nat) : Stack where
  listeners := fun _ => none
  backlog := List.replicate size none
  born := 0
  answered := []
  accepted := []

/-- A call of the callback is for a remote whose SYN this listener has answered, the segment
acknowledges the answer, and the new connection goes on from it. -/
def Right (answered : List Exchange) (a : Accepted) : Prop :=
  ∃ x ∈ answered, x.listener = a.listener ∧ x.syn.src = a.remote ∧ a.pkt.ack = x.seq + 1 ∧
    a.tcp.sendSeq = x.seq + 1 ∧ a.tcp.sendAck = x.ack ∧ x.ack = x.syn.seq + 1 ∧
      netTcpParseOpts x.syn.opts = some a.tcp.sendMss

def AllRight : Prop := ∀ a ∈ s.accepted, Right s.answered a

open Option List

variable {s s' : Stack} {l : Nat} {lis : Listener} {pkt : Packet} {env : Env} {e : Entry}
  {backlog : List (Option Entry)} {x : Exchange} {src : Endpoint}

def Hears (lis : Listener) (pkt : Packet) : Prop :=
  lis.tcp.state = .listen ∨ lis.tcp.state = .synRcvd ∧ pkt.iface = lis.iface

structure Takes (backlog : List (Option Entry)) (lis : Listener) (pkt : Packet) (env : Env)
    (e : Entry) : Prop where
  acceptCb : lis.acceptCb = true
  ctx : env.ctx = true
  bound : env.bound = true
  registered : env.registered = true
  entry : ∃ i, tcpBacklogFind backlog pkt.src = .ok i ∧ backlog[i]? = some (some e)
  ack : e.sendSeq + 1 = pkt.ack

def Accepts (s : Stack) (l : Nat) (pkt : Packet) (env : Env) (e : Entry) : Prop :=
  ∃ lis, s.listeners l = some lis ∧ Hears lis pkt ∧ pkt.flags = netTcpAckFlag ∧
    Takes s.backlog lis pkt env e

def ToOwner (s : Stack) : Act → Prop
  | .segment l pkt env => ∀ e, Accepts s l pkt env e → e.tcp = l
  | _ => True

def AnswerSent : Act → Prop
  | .segment _ pkt env => pkt.flags = netTcpSyn → env.alloc = true ∧ env.sent = true
  | _ => True

theorem findFrom_ok {i j : Nat} {empty : Option Nat} (h : findFrom src backlog i empty = .ok j) :
    ∃ k e, j = i + k ∧ backlog[k]? = some (some e) ∧ e.remote = src := by
  induction backlog generalizing i empty with
  | nil => exact nomatch h
  | cons slot rest ih =>
    cases slot with
    | none =>
      obtain ⟨k, e, rfl, hk⟩ := ih h
      exact ⟨k + 1, e, by omega, hk⟩
    | some e =>
      rw [findFrom] at h
      split at h
      · next he =>
        obtain rfl := Except.ok.inj h
        exact ⟨0, e, rfl, rfl, he⟩
      · obtain ⟨k, e, rfl, hk⟩ := ih h
        exact ⟨k + 1, e, by omega, hk⟩

variable {i : Nat} {t : Stack} {mss : BitVec 16}

theorem tcpBacklogFind_ok (h : tcpBacklogFind backlog src = .ok i) :
    ∃ e, backlog[i]? = some (some e) ∧ e.remote = src := by
  obtain ⟨k, e, rfl, hk⟩ := findFrom_ok h
  exact ⟨e, by simpa using hk⟩

theorem tcpBacklogSyn_eq_some {tcp : Conn} {backlog' : List (Option Entry)}
    (h : tcpBacklogSyn backlog pkt l tcp mss = some backlog') :
    ∃ i, backlog' = backlog.set i (some (newEntry pkt l tcp mss)) := by
  unfold tcpBacklogSyn at h
  split at h
  · exact nomatch h
  · exact nomatch h
  · exact ⟨_, (some.inj h).symm⟩

theorem tcpBacklogAck_of_find (hf : tcpBacklogFind backlog pkt.src = .ok i)
    (he : backlog[i]? = some (some e)) : tcpBacklogAck backlog pkt =
      if e.sendSeq + 1 = pkt.ack then some (e.newTcp, backlog.set i none) else none := by
  rw [tcpBacklogAck, hf]
  dsimp only
  rw [he]
  exact ite_not ..

theorem mem_of_mem_set_none (h : some e ∈ backlog.set i none) : some e ∈ backlog :=
  (mem_or_eq_of_mem_set h).resolve_right (by simp)

theorem mem_of_mem_tcpBacklogRst (h : some e ∈ tcpBacklogRst backlog pkt) : some e ∈ backlog := by
  unfold tcpBacklogRst at h
  split at h
  · exact h
  · split at h
    · exact h
    · split at h
      · exact h
      · exact mem_of_mem_set_none h

def Stack.ids (s : Stack) (l : Nat) : Option Nat := (s.listeners l).map Listener.id

theorem ids_setListener (lis : Listener) (h : s.ids l = some lis.id) :
    (s.setListener l lis).ids = s.ids := by
  funext k
  by_cases hk : k = l
  · subst hk
    rw [h]
    simp [Stack.ids, Stack.setListener]
  · simp [Stack.ids, Stack.setListener, hk]

structure Quiet (s s' : Stack) : Prop where
  ids : s'.ids = s.ids
  born : s'.born = s.born
  answered : s'.answered = s.answered
  backlog : ∀ e, some e ∈ s'.backlog → some e ∈ s.backlog

theorem Quiet.refl (s : Stack) : Quiet s s := ⟨rfl, rfl, rfl, fun _ => id⟩

theorem Quiet.trans (h : Quiet s t) (h' : Quiet t s') : Quiet s s' :=
  ⟨h'.ids.trans h.ids, h'.born.trans h.born, h'.answered.trans h.answered,
    fun e he => h.backlog e (h'.backlog e he)⟩

structure Records (x : Exchange) (e : Entry) : Prop where
  remote : x.syn.src = e.remote
  seq : x.seq = e.sendSeq
  ack : x.ack = e.sendAck
  next : x.ack = x.syn.seq + 1
  mss : netTcpParseOpts x.syn.opts = some e.sendMss

structure Answers (s s' : Stack) (x : Exchange) (e : Entry) : Prop where
  ids : s'.ids = s.ids
  born : s'.born = s.born
  answered : s'.answered = s.answered ++ [x]
  backlog : ∀ e', some e' ∈ s'.backlog → e' = e ∨ some e' ∈ s.backlog
  owner : s.ids e.tcp = some x.listener
  records : Records x e

structure Calls (s s' : Stack) (a : Accepted) (e : Entry) : Prop extends Quiet s s' where
  accepted : s'.accepted = s.accepted ++ [a]
  entry : some e ∈ s.backlog
  remote : e.remote = a.remote
  ack : e.sendSeq + 1 = a.pkt.ack
  tcp : a.tcp = e.newTcp

theorem ackReceived_cases (pkt : Packet) (env : Env) (hl : s.ids l = some lis.id) :
    (∃ e, Takes s.backlog lis pkt env e ∧
      Calls s (ackReceived s l lis pkt env) ⟨lis.id, pkt, pkt.src, e.newTcp⟩ e) ∨
    ((∀ e, ¬ Takes s.backlog lis pkt env e) ∧ Quiet s (ackReceived s l lis pkt env) ∧
      (ackReceived s l lis pkt env).accepted = s.accepted) := by
  unfold ackReceived
  split
  · next hno =>
    refine .inr ⟨fun e h => ?_, .refl s, rfl⟩
    simp [h.acceptCb, h.ctx] at hno
  next hyes =>
  cases hf : tcpBacklogFind s.backlog pkt.src with
  | error empty =>
    have hnone : tcpBacklogAck s.backlog pkt = none := by rw [tcpBacklogAck, hf]
    rw [hnone]
    refine .inr ⟨fun e h => ?_, .refl s, rfl⟩
    obtain ⟨i, hi, -⟩ := h.entry
    exact nomatch hf.symm.trans hi
  | ok i =>
    obtain ⟨e, he, hremote⟩ := tcpBacklogFind_ok hf
    rw [tcpBacklogAck_of_find hf he]
    by_cases hack : e.sendSeq + 1 = pkt.ack
    · have hquiet : Quiet s { s with backlog := s.backlog.set i none } :=
        ⟨rfl, rfl, rfl, fun _ => mem_of_mem_set_none⟩
      rw [if_pos hack]
      dsimp only
      split
      · next hno =>
        refine .inr ⟨fun e h => ?_, hquiet, rfl⟩
        simp [h.bound, h.registered] at hno
      · next hok =>
        simp only [Bool.or_eq_true, Bool.not_eq_true', not_or, Bool.not_eq_false] at hyes hok
        refine .inl ⟨e, ⟨hyes.1, hyes.2, hok.1, hok.2, ⟨i, hf, he⟩, hack⟩, ?_⟩
        exact { hquiet with
          ids := ids_setListener _ hl
          accepted := rfl
          entry := mem_of_getElem? he
          remote := hremote
          ack := hack
          tcp := rfl }
    · rw [if_neg hack]
      refine .inr ⟨fun e' h => ?_, .refl s, rfl⟩
      obtain ⟨j, hj, he'⟩ := h.entry
      cases hf.symm.trans hj
      cases he.symm.trans he'
      exact hack h.ack

structure Silent (s s' : Stack) : Prop where
  accepted : s'.accepted = s.accepted
  answered : s.answered ⊆ s'.answered

theorem sendSynAck_silent (s : Stack) (l : Nat) (lis : Listener) (pkt : Packet) (env : Env) :
    Silent s (sendSynAck s l lis pkt env) := by
  unfold sendSynAck
  dsimp only
  split
  · exact ⟨rfl, fun _ => id⟩
  · split
    · exact ⟨rfl, subset_append_left ..⟩
    · exact ⟨rfl, fun _ => id⟩

theorem sendSynAck_eq (s : Stack) (l : Nat) (lis : Listener) (pkt : Packet)
    (halloc : env.alloc = true) (hsent : env.sent = true) :
    ∃ tcp, sendSynAck s l lis pkt env = { s.setListener l { lis with tcp } with
      answered := s.answered ++ [⟨lis.id, pkt, lis.tcp.sendSeq, lis.tcp.sendAck⟩] } := by
  have hkept := (kept_prepareSegment lis.tcp false true 0 env.alloc).sendAck
  obtain ⟨-, ⟨hnone, -⟩ | ⟨f, hf, -⟩⟩ := prepareSegment_spec lis.tcp false true 0 env.alloc
  · simp [netTcpPrepareSegment, halloc] at hnone
  · unfold sendSynAck
    dsimp only
    rw [hf]
    dsimp only
    rw [if_pos hsent, hkept]
    exact ⟨_, rfl⟩

theorem answers_sendSynAck (hl : s.ids l = some lis.id) (hack : lis.tcp.sendAck = pkt.seq + 1)
    (hmss : netTcpParseOpts pkt.opts = some mss)
    (hbacklog : backlog = s.backlog.set i (some (newEntry pkt l lis.tcp mss)))
    (halloc : env.alloc = true) (hsent : env.sent = true) :
    Answers s (sendSynAck { s with backlog } l lis pkt env)
      ⟨lis.id, pkt, lis.tcp.sendSeq, lis.tcp.sendAck⟩ (newEntry pkt l lis.tcp mss) := by
  obtain ⟨tcp, heq⟩ := sendSynAck_eq { s with backlog } l lis pkt halloc hsent
  rw [heq]
  refine ⟨?_, rfl, rfl, fun e' he' => ?_, hl, rfl, rfl, rfl, hack, hmss⟩
  · exact ids_setListener { lis with tcp } hl
  · rw [hbacklog] at he'
    exact (mem_or_eq_of_mem_set he').symm.imp some.inj id

theorem Answers.of_quiet (hquiet : Quiet s t) (h : Answers t s' x e) : Answers s s' x e where
  ids := h.ids.trans hquiet.ids
  born := h.born.trans hquiet.born
  answered := hquiet.answered ▸ h.answered
  backlog e' he' := (h.backlog e' he').imp_right (hquiet.backlog e')
  owner := hquiet.ids ▸ h.owner
  records := h.records

theorem synReceived_cases (pkt : Packet) (env : Env) (hl : s.ids l = some lis.id) :
    Silent s (synReceived s l lis pkt env) ∧ (env.alloc = true → env.sent = true →
      Quiet s (synReceived s l lis pkt env) ∨
        ∃ x e, Answers s (synReceived s l lis pkt env) x e) := by
  unfold synReceived
  split
  · exact ⟨⟨rfl, fun _ => id⟩, fun _ _ => .inl (.refl s)⟩
  next mss hmss =>
  dsimp only
  have hids : (s.setListener l (lis.answering pkt env.isn)).ids = s.ids := ids_setListener _ hl
  have hquiet : Quiet s (s.setListener l (lis.answering pkt env.isn)) :=
    ⟨hids, rfl, rfl, fun _ => id⟩
  split
  · exact ⟨⟨rfl, fun _ => id⟩, fun _ _ => .inl hquiet⟩
  · next backlog hsyn =>
    have hsilent :=
      sendSynAck_silent { s.setListener l (lis.answering pkt env.isn) with backlog } l
        (lis.answering pkt env.isn) pkt env
    refine ⟨⟨hsilent.accepted, hsilent.answered⟩, fun halloc hsent => .inr ?_⟩
    obtain ⟨i, hi⟩ := tcpBacklogSyn_eq_some hsyn
    refine ⟨_, _, .of_quiet hquiet (answers_sendSynAck ?_ rfl hmss hi halloc hsent)⟩
    exact hids ▸ hl

variable {a : Accepted}

theorem Calls.of_quiet (hquiet : Quiet s t)
    (hacc : t.accepted = s.accepted) (hbacklog : t.backlog = s.backlog) (h : Calls t s' a e) :
    Calls s s' a e where
  ids := h.ids.trans hquiet.ids
  born := h.born.trans hquiet.born
  answered := h.answered.trans hquiet.answered
  backlog e' he' := hquiet.backlog e' (h.backlog e' he')
  accepted := hacc ▸ h.accepted
  entry := hbacklog ▸ h.entry
  remote := h.remote
  ack := h.ack
  tcp := h.tcp

theorem handleSegment_cases (pkt : Packet) (env : Env) (hl : s.ids l = some lis.id) :
    (∃ e, pkt.flags = netTcpAckFlag ∧ Takes s.backlog lis pkt env e ∧
      Calls s (handleSegment s l lis pkt env) ⟨lis.id, pkt, pkt.src, e.newTcp⟩ e) ∨
    ((∀ e, pkt.flags = netTcpAckFlag → ¬ Takes s.backlog lis pkt env e) ∧
      Silent s (handleSegment s l lis pkt env) ∧
      ((pkt.flags = netTcpSyn → env.alloc = true ∧ env.sent = true) →
        Quiet s (handleSegment s l lis pkt env) ∨
          ∃ x e, Answers s (handleSegment s l lis pkt env) x e)) := by
  have hids : (s.setListener l lis).ids = s.ids := ids_setListener _ hl
  have hquiet : Quiet s (s.setListener l lis) := ⟨hids, rfl, rfl, fun _ => id⟩
  unfold handleSegment
  split
  · next hsyn =>
    obtain ⟨hsilent, hcases⟩ := synReceived_cases pkt env (hids ▸ hl)
    refine .inr ⟨fun e hack => ?_, ⟨hsilent.accepted, hsilent.answered⟩, fun hsent => ?_⟩
    · exact absurd (hsyn.symm.trans hack) (by decide)
    · obtain ⟨halloc, hsent⟩ := hsent hsyn
      refine (hcases halloc hsent).imp hquiet.trans ?_
      rintro ⟨x, e, h⟩
      exact ⟨x, e, h.of_quiet hquiet⟩
  split
  · next hrst =>
    refine .inr ⟨fun e hack => ?_, ⟨rfl, fun _ => id⟩, fun _ => .inl ?_⟩
    · exact absurd (hrst.symm.trans hack) (by decide)
    · exact ⟨hids, rfl, rfl, fun _ => mem_of_mem_tcpBacklogRst⟩
  split
  · next hack =>
    rcases ackReceived_cases pkt env (hids ▸ hl) with
      ⟨e, htakes, hcalls⟩ | ⟨hnot, hq, hacc⟩
    · exact .inl ⟨e, hack, htakes, hcalls.of_quiet hquiet rfl rfl⟩
    · have hq := hquiet.trans hq
      exact .inr ⟨fun e _ => hnot e, ⟨hacc, hq.answered ▸ fun _ => id⟩, fun _ => .inl hq⟩
  · next hack =>
    exact .inr ⟨fun e h => absurd h hack, ⟨rfl, fun _ => id⟩, fun _ => .inl hquiet⟩

theorem segment_cases (hl : s.listeners l = some lis) : (∃ e, Accepts s l pkt env e ∧
      Calls s (tcpSynRcvd s l lis pkt env) ⟨lis.id, pkt, pkt.src, e.newTcp⟩ e) ∨
    ((∀ e, ¬ Accepts s l pkt env e) ∧ Silent s (tcpSynRcvd s l lis pkt env) ∧
      (AnswerSent (.segment l pkt env) → Quiet s (tcpSynRcvd s l lis pkt env) ∨
        ∃ x e, Answers s (tcpSynRcvd s l lis pkt env) x e)) := by
  have hids : s.ids l = some lis.id := by rw [Stack.ids, hl, map_some]
  have hsame : ∀ {e}, Accepts s l pkt env e → Hears lis pkt ∧ pkt.flags = netTcpAckFlag ∧
      Takes s.backlog lis pkt env e := by
    rintro e ⟨_, hl', h⟩
    cases hl.symm.trans hl'
    exact h
  have hdropped (hnot : ¬ Hears lis pkt) : (∀ e, ¬ Accepts s l pkt env e) ∧ Silent s s ∧
      (AnswerSent (.segment l pkt env) → Quiet s s ∨ ∃ x e, Answers s s x e) :=
    ⟨fun e h => hnot (hsame h).1, ⟨rfl, fun _ => id⟩, fun _ => .inl (.refl s)⟩
  unfold tcpSynRcvd
  split
  · next hstate =>
    have hiface : s.ids l = some ({ lis with iface := pkt.iface } : Listener).id := hids
    rcases handleSegment_cases pkt env hiface with ⟨e, hack, ht, hc⟩ | ⟨hnot, hrest⟩
    · refine .inl ⟨e, ⟨lis, hl, .inl hstate, hack, ?_⟩, hc⟩
      exact { ht with acceptCb := ht.acceptCb }
    · refine .inr ⟨fun e h => ?_, hrest⟩
      obtain ⟨-, hack, ht⟩ := hsame h
      exact hnot e hack { ht with acceptCb := ht.acceptCb }
  · next hstate =>
    split
    · next hiface =>
      refine .inr (hdropped ?_)
      rintro (h | ⟨-, h⟩)
      · exact nomatch hstate.symm.trans h
      · exact hiface h
    · next hiface =>
      rcases handleSegment_cases pkt env hids with
        ⟨e, hack, ht, hc⟩ | ⟨hnot, hrest⟩
      · exact .inl ⟨e, ⟨lis, hl, .inr ⟨hstate, not_not.mp hiface⟩, hack, ht⟩, hc⟩
      · refine .inr ⟨fun e h => ?_, hrest⟩
        obtain ⟨-, hack, ht⟩ := hsame h
        exact hnot e hack ht
  · next h1 h2 =>
    refine .inr (hdropped ?_)
    rintro (h | ⟨h, -⟩)
    · exact h1 h
    · exact h2 h

structure Sound (s : Stack) : Prop where
  id_lt : ∀ l id, s.ids l = some id → id < s.born
  id_inj : ∀ l l' id, s.ids l = some id → s.ids l' = some id → l = l'
  recorded : ∀ e, some e ∈ s.backlog → ∃ x ∈ s.answered, s.ids e.tcp = some x.listener ∧ Records x e

theorem Sound.of_quiet (h : Sound s) (hq : Quiet s s') : Sound s' where
  id_lt l id hid := by
    rw [hq.born]
    exact h.id_lt l id (hq.ids ▸ hid)
  id_inj l l' id hid hid' := h.id_inj l l' id (hq.ids ▸ hid) (hq.ids ▸ hid')
  recorded e he := by
    rw [hq.answered, hq.ids]
    exact h.recorded e (hq.backlog e he)

theorem Sound.of_answers (h : Sound s) (ha : Answers s s' x e) : Sound s' where
  id_lt l id hid := by
    rw [ha.born]
    exact h.id_lt l id (ha.ids ▸ hid)
  id_inj l l' id hid hid' := h.id_inj l l' id (ha.ids ▸ hid) (ha.ids ▸ hid')
  recorded e' he' := by
    rw [ha.answered, ha.ids]
    rcases ha.backlog e' he' with rfl | he'
    · exact ⟨x, by simp, ha.owner, ha.records⟩
    · obtain ⟨y, hy, hrest⟩ := h.recorded e' he'
      exact ⟨y, mem_append_left _ hy, hrest⟩

theorem ids_of_update {k : Nat} {o : Option Listener} {id : Nat}
    (h : (update s.listeners l o k).map Listener.id = some id) :
    (k = l ∧ o.map Listener.id = some id) ∨ (k ≠ l ∧ s.ids k = some id) := by
  by_cases hk : k = l
  · subst hk
    exact .inl ⟨rfl, by simpa using h⟩
  · exact .inr ⟨hk, by simpa [Stack.ids, hk] using h⟩

theorem Sound.listen (h : Sound s) (hnone : s.listeners l = none) {tcp : Conn} {acceptCb : Bool}
    {iface : Nat} :
    Sound { s.setListener l ⟨s.born, tcp, acceptCb, iface⟩ with born := s.born + 1 } where
  id_lt k id hid := by
    show id < s.born + 1
    rcases ids_of_update hid with ⟨-, hnew⟩ | ⟨-, hold⟩
    · obtain rfl : s.born = id := by simpa using hnew
      exact Nat.lt_succ_self _
    · exact Nat.lt_succ_of_lt (h.id_lt k id hold)
  id_inj k k' id hid hid' := by
    rcases ids_of_update hid with ⟨hk, hnew⟩ | ⟨-, hold⟩ <;>
      rcases ids_of_update hid' with ⟨hk', hnew'⟩ | ⟨-, hold'⟩
    · exact hk.trans hk'.symm
    · obtain rfl : s.born = id := by simpa using hnew
      exact absurd (h.id_lt k' _ hold') (Nat.lt_irrefl _)
    · obtain rfl : s.born = id := by simpa using hnew'
      exact absurd (h.id_lt k _ hold) (Nat.lt_irrefl _)
    · exact h.id_inj k k' id hold hold'
  recorded e he := by
    obtain ⟨x, hx, hid, hrec⟩ := h.recorded e he
    have hne : e.tcp ≠ l := by
      intro heq
      rw [heq, Stack.ids, hnone] at hid
      exact nomatch hid
    refine ⟨x, hx, ?_, hrec⟩
    simpa [Stack.ids, Stack.setListener, hne] using hid

theorem Sound.release (h : Sound s) (l : Nat) : Sound { s with
    listeners := update s.listeners l none, backlog := clearBacklog s.backlog l } where
  id_lt k id hid := by
    rcases ids_of_update hid with ⟨-, hnone⟩ | ⟨-, hold⟩
    · exact nomatch hnone
    · exact h.id_lt k id hold
  id_inj k k' id hid hid' := by
    rcases ids_of_update hid with ⟨-, hnone⟩ | ⟨-, hold⟩
    · exact nomatch hnone
    · rcases ids_of_update hid' with ⟨-, hnone⟩ | ⟨-, hold'⟩
      · exact nomatch hnone
      · exact h.id_inj k k' id hold hold'
  recorded e he := by
    obtain ⟨o, ho, hfilter⟩ := mem_map.mp he
    obtain ⟨rfl, hne⟩ := filter_eq_some_iff.mp hfilter
    obtain ⟨x, hx, hid, hrec⟩ := h.recorded e ho
    refine ⟨x, hx, ?_, hrec⟩
    have hne : e.tcp ≠ l := by simpa using hne
    simpa [Stack.ids, hne] using hid

theorem sound_step {a : Act} (h : Sound s) (hsent : AnswerSent a) (hstep : step s a = some s') :
    Sound s' := by
  cases a with
  | listen l tcp acceptCb iface =>
    rw [step] at hstep
    split at hstep
    · next hnone => exact some.inj hstep ▸ h.listen hnone.1
    · exact nomatch hstep
  | accept l acceptCb =>
    obtain ⟨lis, hl, rfl⟩ := map_eq_some_iff.mp hstep
    split
    · have hid : s.ids l = some lis.id := by rw [Stack.ids, hl, map_some]
      exact h.of_quiet ⟨ids_setListener { lis with acceptCb } hid, rfl, rfl, fun _ => id⟩
    · exact h
  | segment l pkt env =>
    obtain ⟨lis, hl, rfl⟩ := map_eq_some_iff.mp hstep
    rcases segment_cases hl with ⟨e, -, hc⟩ | ⟨-, -, hcases⟩
    · exact h.of_quiet hc.toQuiet
    · rcases hcases hsent with hq | ⟨x, e, ha⟩
      · exact h.of_quiet hq
      · exact h.of_answers ha
  | timeout i =>
    cases hstep
    exact h.of_quiet ⟨rfl, rfl, rfl, fun _ => mem_of_mem_set_none⟩
  | release l => exact some.inj hstep ▸ h.release l

theorem step_accepted {a : Act} (hstep : step s a = some s') :
    (ToOwner s a ∧ Silent s s') ∨ ∃ l pkt env lis e, a = .segment l pkt env ∧
      s.listeners l = some lis ∧ Accepts s l pkt env e ∧
        Calls s s' ⟨lis.id, pkt, pkt.src, e.newTcp⟩ e := by
  cases a with
  | listen l tcp acceptCb iface =>
    rw [step] at hstep
    split at hstep
    · exact .inl ⟨trivial, some.inj hstep ▸ ⟨rfl, fun _ => id⟩⟩
    · exact nomatch hstep
  | accept l acceptCb =>
    obtain ⟨lis, hl, rfl⟩ := map_eq_some_iff.mp hstep
    refine .inl ⟨trivial, ?_⟩
    split <;> exact ⟨rfl, fun _ => id⟩
  | segment l pkt env =>
    obtain ⟨lis, hl, rfl⟩ := map_eq_some_iff.mp hstep
    rcases segment_cases hl with ⟨e, ha, hc⟩ | ⟨hnot, hs, -⟩
    · exact .inr ⟨l, pkt, env, lis, e, rfl, hl, ha, hc⟩
    · exact .inl ⟨fun e ha => absurd ha (hnot e), hs⟩
  | timeout i => exact .inl ⟨trivial, some.inj hstep ▸ ⟨rfl, fun _ => id⟩⟩
  | release l => exact .inl ⟨trivial, some.inj hstep ▸ ⟨rfl, fun _ => id⟩⟩

theorem Right.mono {answered answered' : List Exchange} (h : Right answered a)
    (hsub : answered ⊆ answered') : Right answered' a := by
  obtain ⟨x, hx, hrest⟩ := h
  exact ⟨x, hsub hx, hrest⟩

theorem Silent.allRight (h : Silent s s') (hr : AllRight s) : AllRight s' := by
  intro a ha
  rw [h.accepted] at ha
  exact (hr a ha).mono h.answered

theorem Sound.right (h : Sound s) {id : Nat} (he : some e ∈ s.backlog)
    (hid : s.ids e.tcp = some id) (hl : a.listener = id)
    (hremote : e.remote = a.remote) (hack : e.sendSeq + 1 = a.pkt.ack) (htcp : a.tcp = e.newTcp) :
    Right s.answered a := by
  obtain ⟨x, hx, hxid, hrec⟩ := h.recorded e he
  have hxl : x.listener = a.listener := by
    rw [hl]
    exact some.inj (hxid.symm.trans hid)
  refine ⟨x, hx, hxl, hrec.remote.trans hremote, ?_, ?_, ?_, hrec.next, ?_⟩
  · rw [← hack, hrec.seq]
  · rw [htcp, hrec.seq]
    rfl
  · rw [htcp, hrec.ack]
    rfl
  · rw [htcp]
    exact hrec.mss

def Distinct (answered : List Exchange) : Prop :=
  ∀ x ∈ answered, ∀ y ∈ answered, x.seq = y.seq → x = y

theorem Sound.owner_of_right (h : Sound s) (hd : Distinct s.answered)
    (hl : s.ids l = some lis.id) (he : some e ∈ s.backlog)
    (ha : a.listener = lis.id) (hack : e.sendSeq + 1 = a.pkt.ack) (hr : Right s.answered a) :
    e.tcp = l := by
  obtain ⟨x, hx, hxl, -, hxack, -⟩ := hr
  obtain ⟨y, hy, hyid, hrec⟩ := h.recorded e he
  have hseq : x.seq = y.seq := by
    rw [hrec.seq]
    exact (BitVec.add_left_inj 1).mp (hxack.symm.trans hack.symm)
  obtain rfl := hd x hx y hy hseq
  exact h.id_inj _ _ _ hyid (by rw [hl, hxl, ha])

theorem allRight_step {a : Act} (h : Sound s) (hr : AllRight s) (hstep : step s a = some s') :
    (ToOwner s a → AllRight s') ∧ (Distinct s.answered → AllRight s' → ToOwner s a) := by
  rcases step_accepted hstep with ⟨how, hs⟩ | ⟨l, pkt, _, lis, e, rfl, hl, ha, hc⟩
  · exact ⟨fun _ => hs.allRight hr, fun _ _ => how⟩
  have hid : s.ids l = some lis.id := by rw [Stack.ids, hl, map_some]
  constructor
  · intro how a' ha'
    rw [hc.accepted] at ha'
    rw [hc.answered]
    rcases mem_append.mp ha' with hold | hnew
    · exact hr a' hold
    · obtain rfl := mem_singleton.mp hnew
      exact h.right hc.entry (how e ha ▸ hid) rfl hc.remote hc.ack hc.tcp
  · intro hd hall e' ha'
    have hright := hall ⟨lis.id, pkt, pkt.src, e.newTcp⟩ (by simp [hc.accepted])
    rw [hc.answered] at hright
    obtain ⟨_, hl', -, -, ht'⟩ := ha'
    obtain ⟨i, -, hi⟩ := ht'.entry
    exact h.owner_of_right hd hid (mem_of_getElem? hi) rfl ht'.ack hright

theorem sound_initial (size : Nat) : Sound (initial size) where
  id_lt _ _ hid := nomatch hid
  id_inj _ _ _ hid := nomatch hid
  recorded _ he := nomatch eq_of_mem_replicate he

def listening : Conn := { freshConn false with state := .listen }

def remote : Endpoint := ⟨.v4 0xc0000201#32, 4000⟩

def syn : Packet := ⟨0, remote, 500#32, 0#32, netTcpSyn, []⟩

def acknowledgement : Packet := ⟨0, remote, 501#32, 1001#32, netTcpAckFlag, []⟩

def willing : Env := ⟨1000#32, true, true, true, true, true⟩

def twoListening : Stack :=
  ([Act.listen 0 listening true 0, .listen 1 listening true 0].foldlM step (initial 2)).getD
    (initial 2)

def halfOpen : Stack := (step twoListening (.segment 0 syn willing)).getD twoListening

end Zephyr.TcpAccept
