import Zephyr.MeshReplay

/-! Segmented messages at their receiver. The segments of a message are collected in a context: its
block tells which they are, and its buffer holds their octets. A completed context tells late
segments until another message gets it; from then on only the replay list does. -/

namespace Zephyr.Mesh

open List Option

abbrev Byte := BitVec 8

structure SegRx where
  src : Addr
  dst : Addr
  seqAuth : Nat
  segN : Nat
  ctl : Bool
  inUse : Bool
  obo : Bool
  hdr : Byte
  block : BitVec 32
  bufLen : Nat
  buf : Nat → Byte

structure NetRx where
  pdu : Pdu
  dst : Addr
  ctl : Bool
  localMatch : Bool
  friendMatch : Bool
  data : List Byte

structure SegHead where
  hdr : Byte
  seqZero : Nat
  segO : Nat
  segN : Nat
  payload : List Byte

def segHead : List Byte → Option SegHead
  | hdr :: b1 :: b2 :: b3 :: b :: rest =>
    let seqZero := b1.toNat * 256 + b2.toNat
    some ⟨hdr, seqZero / 4 % 0x2000, seqZero % 4 * 8 + b3.toNat / 32, b3.toNat % 32, b :: rest⟩
  | _ => none

def iviRx (n : Net) (p : Pdu) : BitVec 32 := n.ivIndex - if (p.rx n).oldIv then 1 else 0

/-- `SEQ_AUTH`: the number of the first segment, which differs from that of the others in the 13
bits of SeqZero only. -/
def seqAuth (ivi : BitVec 32) (p : Pdu) (seqZero : Nat) : Nat :=
  ivi.toNat * 2 ^ 24 + (p.seq.toNat / 2 ^ 13 * 2 ^ 13 + seqZero)

def segLen (ctl : Bool) : Nat := if ctl then 8 else 12

section

variable (max : Nat)

def sduLenIsOk (ctl : Bool) (segN : Nat) : Bool := decide (segN * segLen ctl + 1 ≤ max)

def blockComplete (segN : Nat) : BitVec 32 := BitVec.ofNat 32 (2 ^ (segN + 1) - 1)

variable (c : SegRx)

def segRxReset : SegRx := { c with inUse := false }

def comesUpon (src dst : Addr) (auth : Nat) (c : SegRx) : Bool :=
  decide (c.src = src) && decide (c.dst = dst) && (decide (c.seqAuth = auth) || c.inUse)

variable (ctxs : List SegRx)

def segRxFind (src dst : Addr) (auth : Nat) : List SegRx × Option (SegRx × Nat) :=
  match ctxs.zipIdx.find? fun ci => comesUpon src dst auth ci.1 with
  | none => (ctxs, none)
  | some (c, i) =>
    if c.seqAuth = auth then (ctxs, some (c, i)) else (ctxs.set i (segRxReset c), none)

variable (rx : NetRx)

def segRxIsValid (h : SegHead) : Bool :=
  if c.hdr ≠ h.hdr ∨ c.segN ≠ h.segN then false
  else if c.src ≠ rx.pdu.src ∨ c.dst ≠ rx.dst then false
  else decide (c.ctl = rx.ctl)

def newContext (auth : Nat) (h : SegHead) : SegRx :=
  { c with
    inUse := true, bufLen := 0, ctl := rx.ctl, seqAuth := auth, segN := h.segN, hdr := h.hdr
    src := rx.pdu.src, dst := rx.dst, block := 0, obo := rx.friendMatch }

def segRxAlloc (auth : Nat) (h : SegHead) : Option (SegRx × Nat) :=
  (ctxs.zipIdx.find? fun ci => !ci.1.inUse).map fun ci => (newContext ci.1 rx auth h, ci.2)

inductive SegResult where
  | inval
  | already
  | msgSize
  | noMem
  | incomplete
  | complete (sdu : List Byte)

/-- The part of `trans_seg` in front of `found_rx`: the context that the segment goes to. -/
def openContext (auth : Nat) (h : SegHead) : List SegRx × (SegResult ⊕ SegRx × Nat) :=
  match segRxFind ctxs rx.pdu.src rx.dst auth with
  | (ctxs, some (c, i)) =>
    if !segRxIsValid c rx h then (ctxs, .inl .inval)
    else if c.inUse then (ctxs, .inr (c, i))
    else if c.block = blockComplete c.segN then (ctxs, .inl .already)
    else (ctxs, .inl .inval)
  | (ctxs, none) =>
    if !sduLenIsOk max rx.ctl h.segN then (ctxs, .inl .msgSize)
    else
      match segRxAlloc ctxs rx auth h with
      | none => (ctxs, .inl .noMem)
      | some (c, i) => (ctxs, .inr (c, i))

def memcpy (buf : Nat → Byte) (off : Nat) (data : List Byte) : Nat → Byte :=
  fun i => if off ≤ i ∧ i < off + data.length then data.getD (i - off) 0 else buf i

def place (h : SegHead) : SegRx × SegResult :=
  let c := { c with
    buf := memcpy c.buf (h.segO * segLen c.ctl) h.payload
    block := c.block ||| BitVec.twoPow 32 h.segO }
  if c.block ≠ blockComplete h.segN then (c, .incomplete)
  else (c, .complete ((range c.bufLen).map c.buf))

/-- The part from `found_rx` on, up to the check for replays. -/
def storeSegment (h : SegHead) : SegRx × SegResult :=
  if c.block.getLsbD h.segO then (c, .already)
  else if h.segO = h.segN then
    let len := h.segN * segLen c.ctl + h.payload.length
    if max < len then (segRxReset { c with bufLen := len }, .msgSize)
    else place { c with bufLen := len } h
  else if h.payload.length ≠ segLen c.ctl then (c, .inval)
  else place c h

structure Handed where
  pdu : Pdu
  auth : Nat
  sdu : List Byte

structure RxNode where
  replay : Node
  ctxs : List SegRx
  handed : List Handed
  arrived : List NetRx

def checkReplay (n : Node) (p : Pdu) : Bool × Node :=
  let r := isReplay (p.rx n.net) n.net.rpl
  (r.1, ⟨{ n.net with rpl := r.2 }, if r.1 then n.accepted else n.accepted ++ [p]⟩)

variable (s : RxNode)

/-- The end of `trans_seg`: a message for this node is handed on unless it is a replay. -/
def finish (rx : NetRx) (auth : Nat) (c : SegRx) (i segO : Nat) (sdu : List Byte) :
    RxNode × SegResult :=
  if rx.localMatch then
    let r := checkReplay s.replay rx.pdu
    if r.1 then
      let c := { c with block := c.block &&& ~~~ BitVec.twoPow 32 segO }
      ({ s with replay := r.2, ctxs := s.ctxs.set i c }, .inval)
    else
      ({ s with
          replay := r.2
          ctxs := s.ctxs.set i (segRxReset c)
          handed := s.handed ++ [⟨rx.pdu, auth, sdu⟩] }, .complete sdu)
  else ({ s with ctxs := s.ctxs.set i (segRxReset c) }, .complete sdu)

def transSegWith (rx : NetRx) (auth : Nat) (h : SegHead) : RxNode × SegResult :=
  match openContext max s.ctxs rx auth h with
  | (ctxs, .inl r) => ({ s with ctxs := ctxs }, r)
  | (ctxs, .inr (c, i)) =>
    match storeSegment max c h with
    | (c, .complete sdu) => finish { s with ctxs := ctxs } rx auth c i h.segO sdu
    | (c, r) => ({ s with ctxs := ctxs.set i c }, r)

def transSeg (rx : NetRx) : RxNode × SegResult :=
  match segHead rx.data with
  | none => (s, .inval)
  | some h =>
    if h.segN < h.segO then (s, .inval)
    else transSegWith max s rx (seqAuth (iviRx s.replay.net rx.pdu) rx.pdu h.seqZero) h

inductive RxAct where
  | seg (rx : NetRx)
  | unseg (p : Pdu) (localMatch : Bool)
  | ivUpdate (ivIndex : BitVec 32) (ivUpdate : Bool) (now : Int) (txInProgress : Bool)
  /-- The incomplete timer of a context. -/
  | expire (i : Nat)
  | rxReset

def rxStep (cfg : Config) (max : Nat) (s : RxNode) : RxAct → Option RxNode
  | .seg rx =>
    if rx.pdu.Current s.replay.net ∧ (rx.localMatch || rx.friendMatch) then
      some { (transSeg max s rx).1 with arrived := s.arrived ++ [rx] }
    else some s
  | .unseg p localMatch =>
    if p.Current s.replay.net ∧ localMatch then
      some { s with replay := (checkReplay s.replay p).2 }
    else some s
  | .ivUpdate ivIndex ivUpdate now txInProgress =>
    let net := (btMeshNetIvUpdate cfg s.replay.net ivIndex ivUpdate now txInProgress).1
    some { s with replay := { s.replay with net := net } }
  | .expire i => some { s with ctxs := s.ctxs.modify i segRxReset }
  | .rxReset =>
    some { s with ctxs := s.ctxs.map fun c => { segRxReset c with src := 0, dst := 0 } }

def NetRx.auth (n : Net) : Option Nat :=
  (segHead rx.data).map fun h => seqAuth (iviRx n rx.pdu) rx.pdu h.seqZero

def Remembers (auth : Nat) : Prop :=
  ∃ c i, segRxFind ctxs rx.pdu.src rx.dst auth = (ctxs, some (c, i)) ∧ c.inUse = false

/-- A segment of a message that has been handed on is told by its context, or has no greater number
than the one that completed the message; and the replay list has no hole in front of a source. -/
def InTime : RxAct → Prop
  | .seg rx => (rx.localMatch = true → Reaches s.replay.net.rpl rx.pdu.src) ∧
    ∀ h ∈ s.handed, h.pdu.src = rx.pdu.src → rx.auth s.replay.net = some h.auth →
      rx.pdu.seq ≤ h.pdu.seq ∨ Remembers s.ctxs rx h.auth
  | .unseg p _ => Reaches s.replay.net.rpl p.src
  | _ => True

end

variable {cfg : Config} {max : Nat} {s s' : RxNode} {rx : NetRx} {p : Pdu} {n : Net}

theorem iviRx_eq (h : p.Current n) : iviRx n p = p.iv := by
  obtain ⟨hiv, hpos⟩ := rx_oldIv h
  refine BitVec.eq_of_toNat_eq ?_
  unfold iviRx
  cases hold : (p.rx n).oldIv with
  | false =>
    rw [hold] at hiv
    simpa using hiv.symm
  | true =>
    rw [hold] at hiv
    have := hpos hold
    have hone : (1 : BitVec 32).toNat = 1 := rfl
    rw [if_pos rfl, BitVec.toNat_sub, hiv, Bool.toNat_true]
    omega

theorem segHead_seqZero {data : List Byte} {h : SegHead} (hh : segHead data = some h) :
    h.seqZero < 2 ^ 13 := by
  unfold segHead at hh
  split at hh
  · cases hh
    exact Nat.mod_lt _ (by decide)
  · cases hh

theorem seqAuth_div {ivi : BitVec 32} {seqZero : Nat} (h : seqZero < 2 ^ 13) :
    seqAuth ivi p seqZero / 2 ^ 24 = ivi.toNat := by
  unfold seqAuth
  omega

structure HandsOn (s : RxNode) (rx : NetRx) (auth : Nat) : Prop where
  eq_auth : rx.auth s.replay.net = some auth
  passes : (checkReplay s.replay rx.pdu).1 = false
  forgotten : ¬ Remembers s.ctxs rx auth

theorem openContext_of_remembers {auth : Nat} (h : SegHead) (hr : Remembers s.ctxs rx auth) :
    ∃ r, openContext max s.ctxs rx auth h = (s.ctxs, .inl r) := by
  obtain ⟨c, i, hfind, huse⟩ := hr
  rw [openContext, hfind]
  dsimp only
  split
  · exact ⟨_, rfl⟩
  split
  · next hin => exact absurd hin (by simp [huse])
  split <;> exact ⟨_, rfl⟩

theorem transSeg_handed (max : Nat) (s : RxNode) (rx : NetRx) :
    (∃ ctxs, (transSeg max s rx).1 = { s with ctxs }) ∨ rx.localMatch = true ∧
      ∃ ctxs handed, (transSeg max s rx).1 =
          { s with replay := (checkReplay s.replay rx.pdu).2, ctxs, handed } ∧
        (handed = s.handed ∨
          ∃ auth sdu, HandsOn s rx auth ∧ handed = s.handed ++ [⟨rx.pdu, auth, sdu⟩]) := by
  unfold transSeg
  split
  · exact .inl ⟨_, rfl⟩
  next h hh =>
  split
  · exact .inl ⟨_, rfl⟩
  have hauth : rx.auth s.replay.net =
      some (seqAuth (iviRx s.replay.net rx.pdu) rx.pdu h.seqZero) := by
    rw [NetRx.auth, hh]
    rfl
  generalize seqAuth (iviRx s.replay.net rx.pdu) rx.pdu h.seqZero = auth at hauth
  unfold transSegWith
  split
  · exact .inl ⟨_, rfl⟩
  next ctxs c i hopen =>
  split
  · next c' sdu hstore =>
    unfold finish
    split
    · next hlocal =>
      refine .inr ⟨hlocal, ?_⟩
      dsimp only
      split
      · exact ⟨_, _, rfl, .inl rfl⟩
      next hpass =>
      refine ⟨_, _, rfl, .inr ⟨auth, sdu, ⟨hauth, by simpa using hpass, fun hr => ?_⟩, rfl⟩⟩
      obtain ⟨r, hr⟩ := openContext_of_remembers h hr
      rw [hr] at hopen
      cases (Prod.mk.inj hopen).2
    · exact .inl ⟨_, rfl⟩
  · exact .inl ⟨_, rfl⟩

structure OnceOnly (s : RxNode) : Prop where
  faithful : Faithful s.replay
  accepted : ∀ h ∈ s.handed, h.pdu ∈ s.replay.accepted
  iv : ∀ h ∈ s.handed, h.auth / 2 ^ 24 = h.pdu.iv.toNat
  nodup : (s.handed.map fun h => (h.pdu.src, h.auth)).Nodup

theorem OnceOnly.check (h : OnceOnly s) (hp : p.Current s.replay.net)
    (hreach : Reaches s.replay.net.rpl p.src) :
    OnceOnly { s with replay := (checkReplay s.replay p).2 } := by
  refine ⟨h.faithful.pdu hp hreach, fun x hx => ?_, h.iv, h.nodup⟩
  have := h.accepted x hx
  unfold checkReplay
  dsimp only
  split
  · exact this
  · exact mem_append_left _ this

theorem HandsOn.div {auth : Nat} (h : HandsOn s rx auth) (hp : rx.pdu.Current s.replay.net) :
    auth / 2 ^ 24 = rx.pdu.iv.toNat := by
  obtain ⟨x, hx, rfl⟩ := map_eq_some_iff.mp h.eq_auth
  rw [seqAuth_div (segHead_seqZero hx), iviRx_eq hp]

theorem OnceOnly.fresh {auth : Nat} (h : OnceOnly s) (hon : HandsOn s rx auth)
    (hp : rx.pdu.Current s.replay.net) (hok : InTime s (.seg rx)) (hlocal : rx.localMatch = true) :
    ∀ x ∈ s.handed, (x.pdu.src, x.auth) ≠ (rx.pdu.src, auth) := by
  intro x hx heq
  obtain ⟨hsrc, hauth⟩ := Prod.mk.inj heq
  have hacc : (checkReplay s.replay rx.pdu).2.accepted = s.replay.accepted ++ [rx.pdu] := by
    have := hon.passes
    unfold checkReplay at this ⊢
    dsimp only at this ⊢
    rw [this]
    rfl
  have hno := (h.check hp (hok.1 hlocal)).faithful.noReplay
  rw [NoReplay, hacc, pairwise_append] at hno
  have hiv : x.pdu.iv = rx.pdu.iv := by
    refine BitVec.eq_of_toNat_eq ?_
    rw [← h.iv x hx, ← hon.div hp, hauth]
  have hlt := hno.2.2 x.pdu (h.accepted x hx) rx.pdu (mem_singleton_self _) hsrc hiv
  rcases hok.2 x hx hsrc (hon.eq_auth.trans (congrArg some hauth.symm)) with hle | hr
  · rw [BitVec.le_def] at hle
    rw [BitVec.lt_def] at hlt
    omega
  · exact hon.forgotten (hauth ▸ hr)

theorem onceOnly_seg (h : OnceOnly s) (hp : rx.pdu.Current s.replay.net)
    (hok : InTime s (.seg rx)) : OnceOnly (transSeg max s rx).1 := by
  rcases transSeg_handed max s rx with ⟨_, hs⟩ | ⟨hlocal, _, _, hs, rfl | ⟨auth, sdu, hon, rfl⟩⟩
    <;> rw [hs]
  · exact { h with }
  · exact { h.check hp (hok.1 hlocal) with }
  · have hcheck := h.check hp (hok.1 hlocal)
    refine ⟨hcheck.faithful, ?_, ?_, ?_⟩
    · refine forall_mem_append.mpr ⟨hcheck.accepted, fun x hx => ?_⟩
      rw [mem_singleton.mp hx]
      have := hon.passes
      unfold checkReplay at this ⊢
      dsimp only at this ⊢
      rw [this]
      simp
    · refine forall_mem_append.mpr ⟨h.iv, fun x hx => ?_⟩
      rw [mem_singleton.mp hx]
      exact hon.div hp
    · rw [map_append]
      refine nodup_append.mpr ⟨h.nodup, by simp, fun k hk k' hk' => ?_⟩
      obtain ⟨x, hx, rfl⟩ := mem_map.mp hk
      rw [map_singleton, mem_singleton] at hk'
      exact hk' ▸ h.fresh hon hp hok hlocal x hx

theorem onceOnly_step {a : RxAct} (h : OnceOnly s) (hok : InTime s a)
    (hstep : rxStep cfg max s a = some s') : OnceOnly s' := by
  cases a with
  | seg rx =>
    rw [rxStep] at hstep
    split at hstep
    · next hp =>
      cases hstep
      exact { onceOnly_seg h hp.1 hok with }
    · exact some.inj hstep ▸ h
  | unseg p localMatch =>
    rw [rxStep] at hstep
    split at hstep
    · next hp => exact some.inj hstep ▸ h.check hp.1 hok
    · exact some.inj hstep ▸ h
  | ivUpdate ivIndex ivUpdate now txInProgress =>
    cases hstep
    exact { h with faithful := faithful_ivUpdate h.faithful .. }
  | expire i => exact some.inj hstep ▸ { h with }
  | rxReset => exact some.inj hstep ▸ { h with }

/-- In every run in which late segments come in time, each message is handed on at most once. -/
theorem handed_nodup {start : RxNode} (hrpl : ∀ r ∈ start.replay.net.rpl, r = emptySlot)
    (haccepted : start.replay.accepted = []) (hhanded : start.handed = [])
    (hrun : GuardedRun (rxStep cfg max) InTime start s) :
    (s.handed.map fun h => (h.pdu.src, h.auth)).Nodup := by
  have hstart : OnceOnly start :=
    ⟨faithful_of_empty hrpl haccepted, by simp [hhanded], by simp [hhanded], by simp [hhanded]⟩
  exact (hrun.invariant (fun _ _ _ => onceOnly_step) hstart).nodup

def noContext : SegRx := ⟨0, 0, 0, 0, false, false, false, 0, 0, 0, fun _ => 0⟩

def oneContext : RxNode := ⟨twoSlots, [noContext], [], []⟩

def halfMessage (segO : Byte) (seq : Seq) : NetRx where
  pdu := fromFirst 5#32 seq
  dst := 16
  ctl := false
  localMatch := true
  friendMatch := false
  data := [0x80, 0, 40, segO * 32 + 1] ++ if segO = 0 then replicate 12 7 else [9]

def otherMessage : NetRx where
  pdu := fromSecond 5#32 20
  dst := 16
  ctl := false
  localMatch := true
  friendMatch := false
  data := [0x80, 0, 80, 0, 3]

def afterHalf : RxNode := (rxStep ⟨false⟩ 36 oneContext (.seg (halfMessage 0 10))).getD oneContext

def afterBoth : RxNode := (rxStep ⟨false⟩ 36 afterHalf (.seg (halfMessage 1 11))).getD oneContext

theorem handed_nodup_afterBoth : ∃ s, GuardedRun (rxStep ⟨false⟩ 36) InTime oneContext s ∧
    s.handed.map (fun h => (h.pdu.src, h.auth)) = [(1, 5 * 2 ^ 24 + 10)] ∧
      (s.handed.map fun h => (h.pdu.src, h.auth)).Nodup := by
  have hreach : ∀ rpl : List Rpl, rpl = [emptySlot, emptySlot] ∨ rpl = [⟨1, false, 11⟩, emptySlot] →
      Reaches rpl 1 := by
    rintro rpl (rfl | rfl) <;> decide
  have hrun : GuardedRun (rxStep ⟨false⟩ 36) InTime oneContext _ :=
    .tail (.tail (.single ⟨.seg (halfMessage 0 10), ⟨fun _ => hreach _ (.inl rfl), nofun⟩,
      (rfl : _ = some afterHalf)⟩)
      ⟨.seg (halfMessage 1 11), ⟨fun _ => hreach _ (.inl rfl), nofun⟩, (rfl : _ = some afterBoth)⟩)
      ⟨.seg (halfMessage 0 10), ⟨fun _ => hreach _ (.inr rfl), fun h hh _ _ => .inl ?_⟩, rfl⟩
  · exact ⟨_, hrun, rfl, handed_nodup (by simp [oneContext, twoSlots]) rfl rfl hrun⟩
  · have hall : afterBoth.handed.all fun h => decide ((halfMessage 0 10).pdu.seq ≤ h.pdu.seq) := rfl
    simpa using all_eq_true.mp hall h hh

/-- The second half comes first, another message gets the context, and the halves come again. -/
theorem message_handed_twice :
    ∃ s, [RxAct.seg (halfMessage 1 11), .seg (halfMessage 0 10), .seg otherMessage,
        .seg (halfMessage 0 10), .seg (halfMessage 1 11)].foldlM (rxStep ⟨false⟩ 36) oneContext =
          some s ∧
      s.handed.map (fun h => (h.pdu.src, h.auth)) =
        [(1, 5 * 2 ^ 24 + 10), (2, 5 * 2 ^ 24 + 20), (1, 5 * 2 ^ 24 + 10)] ∧
      ¬ (s.handed.map fun h => (h.pdu.src, h.auth)).Nodup :=
  ⟨_, rfl, rfl, by decide⟩

/-- A segmented message; `hdr` is the first octet of its segments, `seq` the number of the first. -/
structure Sdu where
  src : Addr
  unicast : src ≠ 0
  dst : Addr
  iv : BitVec 32
  seq : Seq
  hdr : Byte
  aszmic : Bool
  ctl : Bool
  bytes : List Byte
  nonempty : bytes ≠ []
  segs : (bytes.length - 1) / segLen ctl < 32

namespace Sdu

variable (X : Sdu)

def segN : Nat := (X.bytes.length - 1) / segLen X.ctl

def seqZero : Nat := X.seq.toNat % 2 ^ 13

def auth : Nat := X.iv.toNat * 2 ^ 24 + X.seq.toNat

def segPdu (segO : Nat) (part : List Byte) : List Byte :=
  [X.hdr, BitVec.ofNat 8 (X.aszmic.toNat * 128 + X.seqZero / 64),
    BitVec.ofNat 8 (X.seqZero % 64 * 4 + segO / 8), BitVec.ofNat 8 (segO % 8 * 32 + X.segN)] ++ part

theorem segLen_pos (ctl : Bool) : 0 < segLen ctl := by cases ctl <;> decide

def sendSegLoop (segO : Nat) (sdu : List Byte) : List (List Byte) :=
  if h : sdu = [] then []
  else X.segPdu segO (sdu.take (segLen X.ctl)) :: sendSegLoop (segO + 1) (sdu.drop (segLen X.ctl))
  termination_by sdu.length
  decreasing_by
    have := List.length_pos_iff.mpr h
    have := segLen_pos X.ctl
    rw [length_drop]
    omega

def sendSeg : List (List Byte) := X.sendSegLoop 0 X.bytes

structure Segment (k : Nat) (rx : NetRx) : Prop where
  src : rx.pdu.src = X.src
  dst : rx.dst = X.dst
  iv : rx.pdu.iv = X.iv
  seq : rx.pdu.seq.toNat / 2 ^ 13 = X.seq.toNat / 2 ^ 13
  ctl : rx.ctl = X.ctl
  localMatch : rx.localMatch = true
  data : X.sendSeg[k]? = some rx.data

def part (k : Nat) : List Byte := (X.bytes.drop (k * segLen X.ctl)).take (segLen X.ctl)

def head (k : Nat) : SegHead := ⟨X.hdr, X.seqZero, k, X.segN, X.part k⟩

theorem sendSegLoop_getElem? (sdu : List Byte) (segO k : Nat) : (X.sendSegLoop segO sdu)[k]? =
      if k * segLen X.ctl < sdu.length then
        some (X.segPdu (segO + k) ((sdu.drop (k * segLen X.ctl)).take (segLen X.ctl)))
      else none := by
  induction k generalizing segO sdu with
  | zero =>
    rw [sendSegLoop]
    by_cases h : sdu = []
    · simp [h]
    · simp [h]
  | succ k ih =>
    rw [sendSegLoop]
    by_cases h : sdu = []
    · simp [h]
    · rw [dif_neg h, getElem?_cons_succ, ih, length_drop, drop_drop, Nat.succ_mul,
        Nat.add_comm (segLen X.ctl), Nat.add_assoc, Nat.add_comm 1]
      congr 1
      rw [eq_iff_iff]
      omega

theorem sendSeg_getElem? (k : Nat) : X.sendSeg[k]? =
    if k * segLen X.ctl < X.bytes.length then some (X.segPdu k (X.part k)) else none := by
  rw [sendSeg, sendSegLoop_getElem?, Nat.zero_add]
  rfl

theorem length_pos : 0 < X.bytes.length := length_pos_iff.mpr X.nonempty

variable {k : Nat}

theorem mul_lt_iff : k * segLen X.ctl < X.bytes.length ↔ k ≤ X.segN := by
  have := X.length_pos
  unfold segN segLen
  cases X.ctl <;> simp <;> omega

theorem div_le {i : Nat} (h : i < X.bytes.length) : i / segLen X.ctl ≤ X.segN := by
  exact Nat.div_le_div_right (by omega)

theorem part_length_last : X.segN * segLen X.ctl + (X.part X.segN).length = X.bytes.length := by
  rw [part, length_take]
  unfold segN segLen
  cases X.ctl <;> simp <;> omega

theorem part_length (h : k < X.segN) : (X.part k).length = segLen X.ctl := by
  rw [part, length_take]
  unfold segN segLen at h
  unfold segLen
  revert h
  cases X.ctl <;> simp <;> omega

theorem part_ne_nil (h : k ≤ X.segN) : X.part k ≠ [] := by
  have hlt := X.mul_lt_iff.mpr h
  have := segLen_pos X.ctl
  rw [← length_pos_iff, part, length_take, length_drop]
  omega

theorem segHead_segPdu (h : k ≤ X.segN) : segHead (X.segPdu k (X.part k)) = some (X.head k) := by
  have hsegs : X.segN < 32 := X.segs
  have hzero : X.seqZero < 2 ^ 13 := Nat.mod_lt _ (by decide)
  obtain ⟨b, _, hpart⟩ := exists_cons_of_ne_nil (X.part_ne_nil h)
  rw [segPdu, head, hpart]
  simp only [segHead, cons_append, nil_append, BitVec.toNat_ofNat, Option.some.injEq,
    SegHead.mk.injEq, true_and, and_true]
  omega

variable {X} {k : Nat} {rx : NetRx}

theorem segHead_of_getElem? {data : List Byte} (h : X.sendSeg[k]? = some data) :
    k ≤ X.segN ∧ segHead data = some (X.head k) := by
  rw [sendSeg_getElem?] at h
  split_ifs at h with hlt
  have hle := X.mul_lt_iff.mp hlt
  cases h
  exact ⟨hle, X.segHead_segPdu hle⟩

section

variable (h : X.Segment k rx)
include h

theorem Segment.le : k ≤ X.segN := (segHead_of_getElem? h.data).1

theorem Segment.head : segHead rx.data = some (X.head k) :=
  (segHead_of_getElem? h.data).2

theorem Segment.seqAuth : seqAuth rx.pdu.iv rx.pdu X.seqZero = X.auth := by
  rw [Mesh.seqAuth, h.seq, h.iv, auth, seqZero]
  omega

theorem Segment.auth {n : Net} (hp : rx.pdu.Current n) : rx.auth n = some X.auth := by
  rw [NetRx.auth, h.head, iviRx_eq hp]
  exact congrArg some h.seqAuth

theorem Segment.unique {j : Nat} (hj : X.Segment j rx) : k = j := by
  have heq := Option.some.inj (h.head.symm.trans hj.head)
  exact congrArg SegHead.segO heq

end

structure Holds (X : Sdu) (c : SegRx) (G : Nat → Prop) : Prop where
  src : c.src = X.src
  dst : c.dst = X.dst
  auth : c.seqAuth = X.auth
  segN : c.segN = X.segN
  ctl : c.ctl = X.ctl
  hdr : c.hdr = X.hdr
  inUse : c.inUse = true
  block : ∀ k < 32, c.block.getLsbD k = true ↔ G k
  buf : ∀ i < X.bytes.length, G (i / segLen X.ctl) → c.buf i = X.bytes.getD i 0
  bufLen : G X.segN → c.bufLen = X.bytes.length

variable {c : SegRx} {G : Nat → Prop} {max : Nat}

theorem blockComplete_getLsbD {segN k : Nat} (hk : k < 32) :
    (blockComplete segN).getLsbD k = decide (k ≤ segN) := by
  rw [blockComplete, BitVec.getLsbD_ofNat]
  simp [hk, Nat.lt_succ_iff]

theorem Holds.block_eq_iff (h : X.Holds c G) (hle : ∀ k, G k → k ≤ X.segN) :
    c.block = blockComplete X.segN ↔ ∀ k ≤ X.segN, G k := by
  have hsegs : X.segN < 32 := X.segs
  constructor
  · intro heq k hk
    rw [← h.block k (by omega), heq, blockComplete_getLsbD (by omega)]
    exact decide_eq_true hk
  · intro hall
    refine BitVec.eq_of_getLsbD_eq fun k hk => ?_
    rw [blockComplete_getLsbD hk, Bool.eq_iff_iff, h.block k hk, decide_eq_true_iff]
    exact ⟨hle k, hall k⟩

theorem Holds.sdu_eq (h : X.Holds c G) (hall : ∀ k ≤ X.segN, G k) :
    (range c.bufLen).map c.buf = X.bytes := by
  rw [h.bufLen (hall _ (Nat.le_refl _))]
  refine ext_getElem (by simp) fun i hi hi' => ?_
  rw [getElem_map, getElem_range, h.buf i hi' (hall _ (X.div_le hi'))]
  simp [hi']

theorem memcpy_part {buf : Nat → Byte} {i : Nat} (hi : i < X.bytes.length) :
    memcpy buf (k * segLen X.ctl) (X.part k) i =
      if i / segLen X.ctl = k then X.bytes.getD i 0 else buf i := by
  have hpos := segLen_pos X.ctl
  have hlen : (X.part k).length = min (segLen X.ctl) (X.bytes.length - k * segLen X.ctl) := by
    rw [part, length_take, length_drop]
  have hdiv := Nat.div_add_mod i (segLen X.ctl)
  have hmod := Nat.mod_lt i hpos
  unfold memcpy
  by_cases h : i / segLen X.ctl = k
  · rw [h, Nat.mul_comm] at hdiv
    rw [if_pos h, if_pos (by omega), part, getD_eq_getElem?_getD, getElem?_take_of_lt (by omega),
      getElem?_drop]
    congr 2
    omega
  · rw [if_neg h, if_neg]
    rintro ⟨h1, h2⟩
    refine h (Nat.div_eq_of_lt_le h1 ?_)
    rw [Nat.succ_mul]
    omega

theorem place_eq (c : SegRx) (h : SegHead) : ∃ c', c' = { c with
      buf := memcpy c.buf (h.segO * segLen c.ctl) h.payload
      block := c.block ||| BitVec.twoPow 32 h.segO } ∧
    place c h = (c', if c'.block ≠ blockComplete h.segN then .incomplete
      else .complete ((range c'.bufLen).map c'.buf)) := by
  refine ⟨_, rfl, ?_⟩
  unfold place
  dsimp only
  split <;> rfl

theorem Holds.place (h : X.Holds c G) (hk : k ≤ X.segN)
    (hlen : k = X.segN → c.bufLen = X.bytes.length) :
    ∃ c', (Mesh.place c (X.head k)).1 = c' ∧ X.Holds c' (fun j => G j ∨ j = k) ∧
      (Mesh.place c (X.head k)).2 = if c'.block ≠ blockComplete X.segN then .incomplete
        else .complete ((range c'.bufLen).map c'.buf) := by
  obtain ⟨c', hc', hplace⟩ := place_eq c (X.head k)
  refine ⟨c', by rw [hplace], ?_, by rw [hplace]; rfl⟩
  subst hc'
  refine { h with block := fun j hj => ?_, buf := fun i hi hG => ?_, bufLen := fun hG => ?_ }
  · show (c.block ||| BitVec.twoPow 32 k).getLsbD j = true ↔ _
    rw [BitVec.getLsbD_or, BitVec.getLsbD_twoPow, Bool.or_eq_true, h.block j hj]
    simp only [Bool.and_eq_true, decide_eq_true_eq]
    refine or_congr_right ⟨fun hj => hj.2.symm, ?_⟩
    rintro rfl
    exact ⟨by omega, rfl⟩
  · show memcpy c.buf (k * segLen c.ctl) (X.part k) i = _
    rw [h.ctl, memcpy_part hi]
    split
    · rfl
    · next hne => exact h.buf i hi (hG.resolve_right hne)
  · rcases hG with hG | hG
    · exact h.bufLen hG
    · exact hlen hG.symm

theorem Holds.store_of_mem (h : X.Holds c G) (hk : k ≤ X.segN) (hG : G k) :
    storeSegment max c (X.head k) = (c, .already) := by
  have hsegs : X.segN < 32 := X.segs
  rw [storeSegment, if_pos]
  exact (h.block k (by omega)).mpr hG

theorem Holds.store (h : X.Holds c G) (hk : k ≤ X.segN) (hG : ¬ G k) (hmax : X.bytes.length ≤ max) :
    ∃ c', X.Holds c' (fun j => G j ∨ j = k) ∧ storeSegment max c (X.head k) =
      (c', if c'.block ≠ blockComplete X.segN then .incomplete
        else .complete ((range c'.bufLen).map c'.buf)) := by
  have hsegs : X.segN < 32 := X.segs
  have hnew : ¬ c.block.getLsbD (X.head k).segO := fun hb => hG ((h.block k (by omega)).mp hb)
  rw [storeSegment, if_neg hnew]
  by_cases hlast : k = X.segN
  · subst hlast
    have hlen : (X.head X.segN).segN * segLen c.ctl + (X.head X.segN).payload.length =
        X.bytes.length := by
      rw [h.ctl]
      exact X.part_length_last
    rw [if_pos (show (X.head X.segN).segO = (X.head X.segN).segN from rfl)]
    rw [hlen, if_neg (by omega)]
    have hc : X.Holds { c with bufLen := X.bytes.length } G :=
      { h with bufLen := fun _ => rfl }
    obtain ⟨c', h1, h2, h3⟩ := hc.place (Nat.le_refl _) fun _ => rfl
    exact ⟨c', h2, Prod.ext h1 h3⟩
  · have hlen : (X.head k).payload.length = segLen c.ctl := by
      rw [h.ctl]
      exact X.part_length (by omega)
    rw [if_neg (show ¬ (X.head k).segO = (X.head k).segN from hlast), if_neg (not_not.mpr hlen)]
    obtain ⟨c', h1, h2, h3⟩ := h.place hk fun heq => absurd heq hlast
    exact ⟨c', h2, Prod.ext h1 h3⟩

theorem newContext_holds (h : X.Segment k rx) (c : SegRx) :
    X.Holds (newContext c rx X.auth (X.head k)) fun _ => False :=
  ⟨h.src, h.dst, rfl, rfl, h.ctl, rfl, rfl, by simp [newContext], by simp, by simp⟩

/-- The number of the application nonce of a message whose context is `seqAuth`. -/
def nonceSeq (auth : Nat) : Nat := auth % 2 ^ 24

/-- The receiver finds the number of the first segment exactly if the lower 13 bits of the numbers
have not started again since then. -/
theorem seqAuth_recovered_iff {n : Net} (hdata : X.sendSeg[k]? = some rx.data)
    (hiv : rx.pdu.iv = X.iv) (hp : rx.pdu.Current n) (hge : X.seq.toNat ≤ rx.pdu.seq.toNat)
    (hlt : rx.pdu.seq.toNat < X.seq.toNat + 8192) :
    ∃ auth, rx.auth n = some auth ∧ (auth = X.auth ∧ nonceSeq auth = X.seq.toNat ↔
      X.seqZero ≤ rx.pdu.seq.toNat % 8192) := by
  refine ⟨Mesh.seqAuth X.iv rx.pdu X.seqZero, ?_, ?_⟩
  · rw [NetRx.auth, (segHead_of_getElem? hdata).2, iviRx_eq hp, hiv]
    rfl
  · unfold Mesh.seqAuth nonceSeq auth seqZero
    omega

def acrossBlocks : Sdu where
  src := 1
  unicast := (fromFirst 5 8190).unicast
  dst := 16
  iv := 5
  seq := 8190
  hdr := 0x80
  aszmic := false
  ctl := false
  bytes := replicate 12 7 ++ [9]
  nonempty := by decide
  segs := by decide

def received (X : Sdu) (k : Nat) (seq : Seq) : NetRx :=
  ⟨⟨X.src, X.unicast, X.iv, seq⟩, X.dst, X.ctl, true, false, X.segPdu k (X.part k)⟩

theorem acrossBlocks_getElem? {seq : Seq} (h : k ≤ 1) :
    acrossBlocks.sendSeg[k]? = some (acrossBlocks.received k seq).data := by
  rw [sendSeg_getElem?, if_pos (acrossBlocks.mul_lt_iff.mpr h)]
  rfl

theorem seqAuth_recovered_8191 : ∃ auth, (acrossBlocks.received 0 8191).auth twoSlots.net =
    some auth ∧ auth = acrossBlocks.auth ∧ nonceSeq auth = 8190 := by
  obtain ⟨auth, hauth, hiff⟩ := seqAuth_recovered_iff (acrossBlocks_getElem? (Nat.zero_le 1)) rfl
    (by decide : (acrossBlocks.received 0 8191).pdu.Current twoSlots.net) (by decide) (by decide)
  exact ⟨auth, hauth, hiff.mpr (by decide)⟩

/-- The second segment is sent with the number 8192. -/
theorem seqAuth_in_next_block : acrossBlocks.sendSeg[1]? = some (acrossBlocks.received 1 8192).data ∧
    (acrossBlocks.received 1 8192).auth twoSlots.net = some (acrossBlocks.auth + 8192) :=
  ⟨acrossBlocks_getElem? (Nat.le_refl 1), rfl⟩

end Sdu

end Zephyr.Mesh
