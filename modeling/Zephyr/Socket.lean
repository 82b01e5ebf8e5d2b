import Zephyr.Run

/-! Receiving from a stream socket, `zsock_recv_stream`, with the packets and the end of the stream
that come from the peer and with `zsock_fcntl`. The end of the stream and the mode of the socket are
bits of one word, and setting one of them clears the other. -/

namespace Zephyr.Socket

open List Option

abbrev Byte := BitVec 8

def sockEof : BitVec 32 := 1#32
def sockNonblock : BitVec 32 := 2#32

def sockSetFlag (val mask flag : BitVec 32) : BitVec 32 := (val &&& mask) ||| flag

def sockGetFlag (val mask : BitVec 32) : BitVec 32 := val &&& mask

section

variable (val : BitVec 32)

def sockIsEof : Bool := sockGetFlag val sockEof != 0#32

def sockIsNonblock : Bool := sockGetFlag val sockNonblock != 0#32

def sockSetEof : BitVec 32 := sockSetFlag val sockEof sockEof

structure Pkt where
  frags : List (List Byte)
  eof : Bool
deriving DecidableEq

structure Context where
  userData : BitVec 32
  recvQ : List Pkt

structure RawPkt where
  frags : List (List Byte)
  hdrLen : Nat

def RawPkt.appdata (raw : RawPkt) : List Byte := raw.frags.flatten.drop raw.hdrLen

variable (ctx : Context)

def receivedEof : Context :=
  match ctx.recvQ.getLast? with
  | none => { ctx with userData := sockSetEof ctx.userData }
  | some last => { ctx with recvQ := ctx.recvQ.dropLast ++ [{ last with eof := true }] }

/-- `zsock_received_cb` with a packet. The headers are pulled from the first buffer, which is only
defined if the application data begin in it. -/
def receivedPkt (raw : RawPkt) : Option Context :=
  match raw.frags with
  | [] => none
  | frag :: rest =>
    if raw.hdrLen < frag.length then
      some { ctx with recvQ := ctx.recvQ ++ [⟨frag.drop raw.hdrLen :: rest, false⟩] }
    else none

def recvHead (maxLen : Nat) (ctx : Context) : Option (Context × List Byte) :=
  match ctx.recvQ with
  | [] => none
  | pkt :: q =>
    match pkt.frags with
    | [] => none
    | frag :: rest =>
      let data := frag.take maxLen
      if data.length ≠ frag.length then
        some ({ ctx with recvQ := { pkt with frags := frag.drop maxLen :: rest } :: q }, data)
      else if rest = [] then
        some (⟨if pkt.eof then sockSetEof ctx.userData else ctx.userData, q⟩, data)
      else some ({ ctx with recvQ := { pkt with frags := rest } :: q }, data)

inductive Outcome where
  | ret (data : List Byte)
  | again
  | waits

/-- `zsock_recv_stream` up to its return or its wait. A round without data takes a fragment from the
queue. -/
def recvLoop (maxLen : Nat) (nowait : Bool) : Nat → Context → Option (Context × Outcome)
  | 0, _ => none
  | n + 1, ctx =>
    if sockIsEof ctx.userData then some (ctx, .ret [])
    else if ctx.recvQ.isEmpty then some (ctx, if nowait then .again else .waits)
    else
      (recvHead maxLen ctx).bind fun r =>
        if r.2 = [] then recvLoop maxLen nowait n r.1 else some (r.1, .ret r.2)

def fragCount : Nat := (ctx.recvQ.map fun p => p.frags.length).sum

def recvResume (maxLen : Nat) (ctx : Context) : Option (Context × Outcome) :=
  if ctx.recvQ.isEmpty then
    some (ctx, if sockIsEof ctx.userData then .ret [] else .again)
  else
    (recvHead maxLen ctx).bind fun r =>
      if r.2 = [] then recvLoop maxLen false (fragCount r.1 + 1) r.1 else some (r.1, .ret r.2)

def zsockFcntl (nonblock : Bool) : Context :=
  let flag := if nonblock then sockNonblock else 0
  { ctx with userData := sockSetFlag ctx.userData sockNonblock flag }

end

/-- The socket with a receiver that may wait, and what has happened: the application data of the
packets, whether the peer has closed, what `zsock_fcntl` asked for last and what `zsock_recv`
returned, `none` for `EAGAIN`. -/
structure Sock where
  ctx : Context
  waiting : Option Nat
  cancelled : Bool
  sent : List Byte
  closed : Bool
  nonblock : Bool
  log : List (Option (List Byte))

def Sock.init : Sock := ⟨⟨0, []⟩, none, false, [], false, false, []⟩

inductive Act where
  | packet (raw : RawPkt)
  | close
  | recv (maxLen : Nat)
  | resume
  | fcntl (nonblock : Bool)

def Sock.finish (s : Sock) (maxLen : Nat) (r : Context × Outcome) : Sock :=
  match r.2 with
  | .ret data => { s with ctx := r.1, waiting := none, log := s.log ++ [some data] }
  | .again => { s with ctx := r.1, waiting := none, log := s.log ++ [none] }
  | .waits => { s with ctx := r.1, waiting := some maxLen }

def step (s : Sock) : Act → Option Sock
  | .packet raw =>
    if s.closed then none
    else (receivedPkt s.ctx raw).map fun ctx => { s with ctx, sent := s.sent ++ raw.appdata }
  | .close =>
    if s.closed then none
    else some { s with
      ctx := receivedEof s.ctx
      closed := true
      cancelled := s.cancelled || s.ctx.recvQ.isEmpty }
  | .recv maxLen =>
    if maxLen = 0 ∨ s.waiting.isSome then none
    else (recvLoop maxLen (sockIsNonblock s.ctx.userData) (fragCount s.ctx + 1) s.ctx).map
      (s.finish maxLen)
  | .resume =>
    match s.waiting with
    | none => none
    | some maxLen =>
      if s.ctx.recvQ.isEmpty && !s.cancelled then none
      else (recvResume maxLen s.ctx).map (s.finish maxLen)
  | .fcntl nonblock => some { s with ctx := zsockFcntl s.ctx nonblock, nonblock }

variable {ctx ctx' : Context} {closed nonblock nowait : Bool} {maxLen n : Nat} {data : List Byte}
  {pkt : Pkt} {q : List Pkt} {out : Outcome}

def queued (q : List Pkt) : List Byte := (q.map fun p => p.frags.flatten).flatten

theorem queued_cons (pkt : Pkt) (q : List Pkt) :
    queued (pkt :: q) = pkt.frags.flatten ++ queued q := by
  rfl

theorem queued_append (q q' : List Pkt) : queued (q ++ q') = queued q ++ queued q' := by
  rw [queued, map_append, flatten_append]
  rfl

def Marked (closed : Bool) : List Pkt → Prop
  | [] => True
  | [pkt] => pkt.frags ≠ [] ∧ pkt.eof = closed
  | pkt :: next :: q => (pkt.frags ≠ [] ∧ pkt.eof = false) ∧ Marked closed (next :: q)

theorem Marked.frags_ne (h : Marked closed (pkt :: q)) : pkt.frags ≠ [] := by
  cases q with
  | nil => exact h.1
  | cons next q => exact h.1.1

theorem Marked.eof_eq (h : Marked closed (pkt :: q)) : pkt.eof = (closed && q.isEmpty) := by
  cases q with
  | nil => simpa using h.2
  | cons next q => simpa using h.1.2

theorem Marked.tail (h : Marked closed (pkt :: q)) : Marked closed q := by
  cases q with
  | nil => trivial
  | cons next q => exact h.2

theorem Marked.cons (hne : pkt.frags ≠ []) (heof : pkt.eof = (closed && q.isEmpty))
    (h : Marked closed q) : Marked closed (pkt :: q) := by
  cases q with
  | nil => exact ⟨hne, by simpa using heof⟩
  | cons next q => exact ⟨⟨hne, by simpa using heof⟩, h⟩

theorem Marked.append_packet (h : Marked false q) (hne : pkt.frags ≠ []) (heof : pkt.eof = false) :
    Marked false (q ++ [pkt]) := by
  induction q with
  | nil => exact ⟨hne, heof⟩
  | cons p q ih =>
    refine Marked.cons h.frags_ne ?_ (ih h.tail)
    rw [h.eof_eq, Bool.false_and, Bool.false_and]

theorem Marked.append_eof (h : Marked false (q ++ [pkt])) :
    Marked true (q ++ [{ pkt with eof := true }]) := by
  induction q with
  | nil => exact ⟨h.1, rfl⟩
  | cons p q ih =>
    refine Marked.cons (Marked.frags_ne h) ?_ (ih (Marked.tail h))
    rw [Marked.eof_eq h]
    simp

structure Fine (closed nonblock : Bool) (ctx : Context) : Prop where
  marked : Marked closed ctx.recvQ
  flags : ctx.userData =
    if closed && ctx.recvQ.isEmpty then sockEof else if nonblock then sockNonblock else 0
  mode : closed && ctx.recvQ.isEmpty → nonblock = false

theorem Fine.isEof (h : Fine closed nonblock ctx) :
    sockIsEof ctx.userData = (closed && ctx.recvQ.isEmpty) := by
  rw [h.flags]
  split
  · next heof => rw [heof]; rfl
  · next heof =>
    rw [Bool.eq_false_iff.mpr heof]
    cases nonblock <;> rfl

theorem Fine.isNonblock (h : Fine closed nonblock ctx) :
    sockIsNonblock ctx.userData = nonblock := by
  rw [h.flags]
  split
  · next heof => rw [h.mode heof]; rfl
  · cases nonblock <;> rfl

theorem sockSetEof_blocking : sockSetEof 0 = sockEof := by decide

theorem Fine.recvHead (h : Fine closed nonblock ctx) (hmax : 0 < maxLen)
    (hblock : closed = true → nonblock = false) (hq : ctx.recvQ ≠ []) :
    ∃ ctx' data, Socket.recvHead maxLen ctx = some (ctx', data) ∧ Fine closed nonblock ctx' ∧
      data ++ queued ctx'.recvQ = queued ctx.recvQ ∧
      (data = [] → fragCount ctx' < fragCount ctx) := by
  obtain ⟨flags, _⟩ := ctx
  obtain ⟨pkt, q, rfl⟩ := exists_cons_of_ne_nil hq
  obtain ⟨frag, rest, hfrags⟩ := exists_cons_of_ne_nil h.marked.frags_ne
  have hflags := h.flags
  simp only [isEmpty_cons] at hflags
  -- the packet stays at the head of the queue with other fragments
  have hstay (frags : List (List Byte)) (hne : frags ≠ []) :
      Fine closed nonblock ⟨flags, { pkt with frags } :: q⟩ := by
    refine ⟨Marked.cons hne h.marked.eof_eq h.marked.tail, ?_, ?_⟩
    · simpa using hflags
    · simp
  simp only [Socket.recvHead, hfrags]
  by_cases hpart : (frag.take maxLen).length ≠ frag.length
  · refine ⟨_, _, if_pos hpart, hstay _ (cons_ne_nil _ _), ?_, ?_⟩
    · rw [queued_cons, queued_cons, hfrags, flatten_cons, flatten_cons,
        ← append_assoc, ← append_assoc, take_append_drop]
    · intro hnil
      rw [hnil] at hpart
      have hempty : frag = [] := by
        rcases take_eq_nil_iff.mp hnil with hzero | hempty
        · omega
        · exact hempty
      exact absurd (by rw [hempty]) hpart
  rw [if_neg hpart]
  have hall : frag.take maxLen = frag := by
    refine take_of_length_le ?_
    rw [length_take] at hpart
    omega
  rw [hall]
  by_cases hlast : rest = []
  · rw [if_pos hlast]
    refine ⟨_, _, rfl, ⟨h.marked.tail, ?_, ?_⟩, ?_, fun _ => ?_⟩
    · rw [h.marked.eof_eq, hflags]
      cases hclosed : closed with
      | false => rfl
      | true =>
        rw [hblock hclosed]
        cases q with
        | nil => exact sockSetEof_blocking
        | cons next q => rfl
    · intro heof
      exact hblock (Bool.and_eq_true _ _ ▸ heof).1
    · rw [queued_cons, hfrags, hlast, flatten_cons, flatten_nil, append_nil]
    · simp [fragCount, hfrags]
  · rw [if_neg hlast]
    refine ⟨_, _, rfl, hstay rest hlast, ?_, fun _ => ?_⟩
    · rw [queued_cons, queued_cons, hfrags, flatten_cons, append_assoc]
    · simp [fragCount, hfrags]

def Outcome.Right (closed nowait : Bool) (before after : List Pkt) : Outcome → Prop
  | .ret data => data ++ queued after = queued before ∧
      (data = [] → closed = true ∧ after = [])
  | .again => queued before = [] ∧ after = [] ∧ closed = false ∧ nowait = true
  | .waits => queued before = [] ∧ after = [] ∧ closed = false ∧ nowait = false

theorem Outcome.Right.of_queued {before before' after : List Pkt}
    (h : out.Right closed nowait before after) (heq : queued before = queued before') :
    out.Right closed nowait before' after := by
  cases out with
  | ret data => exact ⟨h.1.trans heq, h.2⟩
  | again => exact ⟨heq.symm.trans h.1, h.2⟩
  | waits => exact ⟨heq.symm.trans h.1, h.2⟩

section

variable (h : Fine closed nonblock ctx) (hmax : 0 < maxLen)
  (hblock : closed = true → nonblock = false)

include h hmax hblock

theorem Fine.recvLoop (hfuel : fragCount ctx < n) (nowait : Bool) :
    ∃ ctx' out, Socket.recvLoop maxLen nowait n ctx = some (ctx', out) ∧
      Fine closed nonblock ctx' ∧ out.Right closed nowait ctx.recvQ ctx'.recvQ := by
  induction n generalizing ctx with
  | zero => exact absurd hfuel (Nat.not_lt_zero _)
  | succ n ih =>
    rw [Socket.recvLoop, h.isEof]
    by_cases hempty : ctx.recvQ = []
    · rw [hempty]
      cases hclosed : closed with
      | true =>
        subst hclosed
        exact ⟨ctx, _, rfl, h, by simp [Outcome.Right, hempty]⟩
      | false =>
        subst hclosed
        cases nowait with
        | true => exact ⟨ctx, _, rfl, h, by simp [Outcome.Right, hempty, queued]⟩
        | false => exact ⟨ctx, _, rfl, h, by simp [Outcome.Right, hempty, queued]⟩
    · have hne : ctx.recvQ.isEmpty = false := by simpa using hempty
      obtain ⟨ctx1, data, hhead, hfine, hbytes, hcount⟩ := h.recvHead hmax hblock hempty
      rw [hne, Bool.and_false, if_neg Bool.false_ne_true, if_neg Bool.false_ne_true, hhead,
        bind_some]
      by_cases hdata : data = []
      · have hlt := hcount hdata
        obtain ⟨ctx', out, hloop, hfine', hright⟩ := ih hfine (by omega)
        rw [hdata] at hbytes
        exact ⟨ctx', out, by rw [if_pos hdata, hloop], hfine', hright.of_queued hbytes⟩
      · exact ⟨ctx1, .ret data, if_neg hdata, hfine, hbytes, fun hnil => absurd hnil hdata⟩

theorem Fine.recvResume (hclosed : ctx.recvQ = [] → closed = true) :
    ∃ ctx' out, Socket.recvResume maxLen ctx = some (ctx', out) ∧ Fine closed nonblock ctx' ∧
      out.Right closed false ctx.recvQ ctx'.recvQ := by
  rw [Socket.recvResume, h.isEof]
  by_cases hempty : ctx.recvQ = []
  · rw [hempty, hclosed hempty]
    exact ⟨ctx, _, rfl, hclosed hempty ▸ h, by simp [Outcome.Right, hempty]⟩
  · have hne : ctx.recvQ.isEmpty = false := by simpa using hempty
    obtain ⟨ctx1, data, hhead, hfine, hbytes, -⟩ := h.recvHead hmax hblock hempty
    rw [hne, if_neg Bool.false_ne_true, hhead, bind_some]
    by_cases hdata : data = []
    · obtain ⟨ctx', out, hloop, hfine', hright⟩ :=
        hfine.recvLoop hmax hblock (Nat.lt_succ_self _) false
      rw [hdata] at hbytes
      exact ⟨ctx', out, by rw [if_pos hdata, hloop], hfine', hright.of_queued hbytes⟩
    · exact ⟨ctx1, .ret data, if_neg hdata, hfine, hbytes, fun hnil => absurd hnil hdata⟩

end

variable {s t : Sock} {a : Act}

def returned (log : List (Option (List Byte))) : List Byte := (log.filterMap id).flatten

theorem returned_append (log log' : List (Option (List Byte))) :
    returned (log ++ log') = returned log ++ returned log' := by
  simp [returned]

/-- The end of the stream is reached in blocking mode, the mode is not asked for after that, and it
is not set back to blocking. A packet's data begin in its first buffer. -/
def Quiet (s : Sock) : Act → Prop
  | .packet raw => raw.hdrLen < (raw.frags.headD []).length
  | .close => s.ctx.recvQ = [] → s.nonblock = false
  | .recv _ => s.closed = true → s.nonblock = false
  | .resume => s.closed = true → s.nonblock = false
  | .fcntl nonblock => (s.closed = true → s.ctx.recvQ ≠ []) ∧ (s.nonblock = true → nonblock = true)

structure Inv (s : Sock) : Prop where
  fine : Fine s.closed s.nonblock s.ctx
  order : returned s.log ++ queued s.ctx.recvQ = s.sent
  ended : some [] ∈ s.log → s.closed = true ∧ s.ctx.recvQ = []
  zeros : s.log.Pairwise fun r r' => r = some [] → r' = some []
  cancelled : s.cancelled = true → s.closed = true
  waiting : ∀ m, s.waiting = some m → 0 < m

theorem inv_init : Inv Sock.init where
  fine := ⟨trivial, rfl, nofun⟩
  order := rfl
  ended := nofun
  zeros := .nil
  cancelled := nofun
  waiting := nofun

theorem pairwise_append_singleton {log : List (Option (List Byte))} {r : Option (List Byte)}
    (h : log.Pairwise fun r r' => r = some [] → r' = some []) (hr : some [] ∈ log → r = some []) :
    (log ++ [r]).Pairwise fun r r' => r = some [] → r' = some [] := by
  refine pairwise_append.mpr ⟨h, pairwise_singleton .., fun x hx y hy hzero => ?_⟩
  rw [mem_singleton.mp hy]
  exact hr (hzero ▸ hx)

theorem Inv.finish (h : Inv s) {ctx' : Context}
    (hfine : Fine s.closed s.nonblock ctx') (hmax : 0 < maxLen)
    (hright : out.Right s.closed nowait s.ctx.recvQ ctx'.recvQ) :
    Inv (s.finish maxLen (ctx', out)) := by
  have horder := h.order
  cases out with
  | ret data =>
    obtain ⟨hbytes, hend⟩ := hright
    have hzero : some [] ∈ s.log → data = [] := by
      intro hmem
      rw [(h.ended hmem).2] at hbytes
      exact (append_eq_nil_iff.mp hbytes).1
    refine ⟨hfine, ?_, ?_, pairwise_append_singleton h.zeros fun hmem => by rw [hzero hmem],
      h.cancelled, nofun⟩
    · show returned (s.log ++ [some data]) ++ queued ctx'.recvQ = s.sent
      rw [returned_append, append_assoc, ← horder, ← hbytes]
      simp [returned]
    · intro hmem
      rcases mem_append.mp hmem with hmem | hmem
      · exact hend (hzero hmem)
      · exact hend (some.inj (mem_singleton.mp hmem)).symm
  | again =>
    obtain ⟨hbytes, hempty, hclosed, -⟩ := hright
    have hnot : some [] ∉ s.log := by
      intro hmem
      rw [(h.ended hmem).1] at hclosed
      cases hclosed
    refine ⟨hfine, ?_, ?_, pairwise_append_singleton h.zeros fun hmem => absurd hmem hnot,
      h.cancelled, nofun⟩
    · show returned (s.log ++ [none]) ++ queued ctx'.recvQ = s.sent
      rw [returned_append, append_assoc, ← horder, hbytes, hempty]
      rfl
    · intro hmem
      rcases mem_append.mp hmem with hmem | hmem
      · exact absurd hmem hnot
      · cases mem_singleton.mp hmem
  | waits =>
    obtain ⟨hbytes, hempty, hclosed, -⟩ := hright
    refine ⟨hfine, ?_, fun hmem => ?_, h.zeros, h.cancelled, ?_⟩
    · show returned s.log ++ queued ctx'.recvQ = s.sent
      rw [← horder, hbytes, hempty]
      rfl
    · rw [(h.ended hmem).1] at hclosed
      cases hclosed
    · intro m hm
      rwa [← some.inj hm]

theorem Inv.packet (h : Inv s) {raw : RawPkt} (hopen : s.closed = false)
    (hraw : raw.hdrLen < (raw.frags.headD []).length) (hctx : receivedPkt s.ctx raw = some ctx') :
    Inv { s with ctx := ctx', sent := s.sent ++ raw.appdata } := by
  obtain ⟨frags, hdrLen⟩ := raw
  cases frags with
  | nil => exact absurd hraw (Nat.not_lt_zero _)
  | cons frag rest =>
    have hlt : hdrLen < frag.length := hraw
    dsimp only [receivedPkt] at hctx
    rw [if_pos hlt] at hctx
    cases hctx
    obtain ⟨⟨hmarked, hflags, -⟩, horder, hended, hzeros, hcancelled, hwaiting⟩ := h
    rw [hopen] at hmarked hflags
    refine ⟨⟨?_, ?_, ?_⟩, ?_, fun hmem => ?_, hzeros, hcancelled, hwaiting⟩
    · rw [hopen]
      exact hmarked.append_packet (cons_ne_nil _ _) rfl
    · simpa using hflags
    · rw [hopen]
      nofun
    · have happ : RawPkt.appdata ⟨frag :: rest, hdrLen⟩ = frag.drop hdrLen ++ rest.flatten := by
        rw [RawPkt.appdata, flatten_cons, drop_append_of_le_length (Nat.le_of_lt hlt)]
      rw [queued_append, ← append_assoc, horder, happ, queued_cons]
      simp [queued]
    · rw [(hended hmem).1] at hopen
      cases hopen

theorem Inv.close (h : Inv s) (hopen : s.closed = false)
    (hmode : s.ctx.recvQ = [] → s.nonblock = false) :
    Inv { s with
      ctx := receivedEof s.ctx
      closed := true
      cancelled := s.cancelled || s.ctx.recvQ.isEmpty } := by
  obtain ⟨⟨hmarked, hflags, -⟩, horder, hended, hzeros, -, hwaiting⟩ := h
  have hnot : some [] ∉ s.log := by
    intro hmem
    rw [(hended hmem).1] at hopen
    cases hopen
  rw [hopen] at hmarked hflags
  rcases eq_nil_or_concat s.ctx.recvQ with hempty | ⟨q, last, hq⟩
  · have hctx : receivedEof s.ctx = ⟨sockSetEof s.ctx.userData, s.ctx.recvQ⟩ := by
      rw [receivedEof, hempty]
      rfl
    rw [hctx]
    refine ⟨⟨?_, ?_, fun _ => hmode hempty⟩, horder, fun hmem => absurd hmem hnot, hzeros,
      fun _ => rfl, hwaiting⟩
    · rw [hempty]
      trivial
    · rw [hmode hempty] at hflags
      rw [hflags, hempty]
      exact sockSetEof_blocking
  · rw [concat_eq_append] at hq
    have hctx : receivedEof s.ctx = ⟨s.ctx.userData, q ++ [{ last with eof := true }]⟩ := by
      rw [receivedEof, hq, getLast?_append, dropLast_concat]
      rfl
    rw [hq] at hmarked horder
    rw [hctx]
    refine ⟨⟨hmarked.append_eof, ?_, fun heof => ?_⟩, ?_, fun hmem => absurd hmem hnot, hzeros,
      fun _ => rfl, hwaiting⟩
    · simpa using hflags
    · simp at heof
    · rw [← horder, queued_append, queued_append]
      rfl

theorem Inv.fcntl (h : Inv s) (hopen : s.closed = true → s.ctx.recvQ ≠ [])
    (hmode : s.nonblock = true → nonblock = true) :
    Inv { s with ctx := zsockFcntl s.ctx nonblock, nonblock } := by
  obtain ⟨⟨hmarked, hflags, -⟩, horder, hended, hzeros, hcancelled, hwaiting⟩ := h
  have heof : (s.closed && s.ctx.recvQ.isEmpty) = false := by
    cases hclosed : s.closed with
    | false => rfl
    | true => simpa using hopen hclosed
  refine ⟨⟨hmarked, ?_, fun htrue => ?_⟩, horder, hended, hzeros, hcancelled, hwaiting⟩
  · show sockSetFlag s.ctx.userData sockNonblock (if nonblock then sockNonblock else 0) =
      if s.closed && s.ctx.recvQ.isEmpty then sockEof else if nonblock then sockNonblock else 0
    rw [hflags, heof]
    cases hold : s.nonblock with
    | true =>
      rw [hmode hold]
      decide
    | false => cases nonblock <;> decide
  · exact absurd (heof.symm.trans htrue) Bool.false_ne_true

theorem Inv.step (h : Inv s) (hquiet : Quiet s a) (hstep : Socket.step s a = some t) : Inv t := by
  cases a with
  | packet raw =>
    rw [Socket.step] at hstep
    split at hstep
    · cases hstep
    · next hopen =>
      obtain ⟨ctx', hctx, rfl⟩ := map_eq_some_iff.mp hstep
      exact h.packet (Bool.eq_false_iff.mpr hopen) hquiet hctx
  | close =>
    rw [Socket.step] at hstep
    split at hstep
    · cases hstep
    · next hopen =>
      cases hstep
      exact h.close (Bool.eq_false_iff.mpr hopen) hquiet
  | recv maxLen =>
    rw [Socket.step] at hstep
    split at hstep
    · cases hstep
    · next hcall =>
      have hmax : 0 < maxLen := Nat.pos_of_ne_zero fun hzero => hcall (.inl hzero)
      obtain ⟨ctx', out, hloop, hfine, hright⟩ :=
        h.fine.recvLoop hmax hquiet (Nat.lt_succ_self _) (sockIsNonblock s.ctx.userData)
      rw [hloop] at hstep
      cases hstep
      exact h.finish hfine hmax hright
  | resume =>
    rw [Socket.step] at hstep
    split at hstep
    · cases hstep
    · next maxLen hwaiting =>
      split at hstep
      · cases hstep
      · next hwoken =>
        have hmax := h.waiting maxLen hwaiting
        have hclosed : s.ctx.recvQ = [] → s.closed = true := by
          intro hempty
          rw [hempty] at hwoken
          exact h.cancelled (by simpa using hwoken)
        obtain ⟨ctx', out, hloop, hfine, hright⟩ := h.fine.recvResume hmax hquiet hclosed
        rw [hloop] at hstep
        cases hstep
        exact h.finish hfine hmax hright
  | fcntl nonblock =>
    cases hstep
    exact h.fcntl hquiet.1 hquiet.2

instance Quiet.instDecidable (s : Sock) : (a : Act) → Decidable (Quiet s a)
  | .packet _ => inferInstanceAs (Decidable (_ < _))
  | .close => inferInstanceAs (Decidable (_ → _))
  | .recv _ => inferInstanceAs (Decidable (_ → _))
  | .resume => inferInstanceAs (Decidable (_ → _))
  | .fcntl _ => inferInstanceAs (Decidable (_ ∧ _))

def twoParts : Option Sock :=
  [.recv 2, .packet ⟨[[9, 9, 1, 2], [3]], 2⟩, .resume, .recv 8, .close, .recv 8, .recv 8].foldlM
    (fun s a => if Quiet s a then step s a else none) Sock.init

theorem twoParts_isSome : twoParts.isSome := by decide +kernel

end Zephyr.Socket
