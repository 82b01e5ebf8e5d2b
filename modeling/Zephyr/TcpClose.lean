import Zephyr.TcpStream

/-! The packets that wait for an acknowledgement, and the end of a connection. A number that has not
been sent removes the whole list, and the changes of state that the acknowledgement of the FIN is
for are made on the next acknowledgement, whatever its number is. -/

namespace Zephyr.Tcp

open List

variable {cfg : Config} {c c' : Conn} {ack : Seq} {p q : TxPkt} {list : List TxPkt} {x y s n : Nat}

def TxPkt.occupies (p : TxPkt) : Nat := p.appdatalen + p.fin.toNat

def Covers (ack sendSeq : Seq) (p : TxPkt) : Prop :=
  p.occupies ≤ (ack - p.seq).toNat ∧ (ack - p.seq).toNat ≤ (sendSeq - p.seq).toNat

def removed (cfg : Config) (c : Conn) (ack : Seq) : List TxPkt :=
  c.sentList.take (c.sentList.length - (netTcpAckReceived cfg c ack).sentList.length)

inductive QueueAct where
  | queue (len : Fin (2 ^ 16)) (alloc : Bool)
  | prepare (fin ack alloc : Bool)
  | ack (ack : Seq)
  | enter (state : TcpState)

def queueStep (cfg : Config) (c : Conn) : QueueAct → Option Conn
  | .queue len alloc => some (netTcpQueueData c len alloc)
  | .prepare fin ack alloc => some (netTcpPrepareSegment c fin ack 0 alloc).1
  | .ack ack => some (netTcpAckReceived cfg c ack)
  | .enter state => some { c with state }

def outstanding (c : Conn) : Nat :=
  match c.sentList with
  | [] => 0
  | p :: _ => (c.sendSeq - p.seq).toNat

def QueueOk (c : Conn) : QueueAct → Prop
  | .queue len _ => outstanding c + len + 2 < 2 ^ 31
  | .prepare _ _ _ => outstanding c + 2 < 2 ^ 31
  | _ => True

/-- An acknowledgement number is one that has been sent, and not that of the FIN of a packet on the
list; or it is so far ahead that it counts as an old one. -/
def AckOk (c : Conn) (ack : Seq) : Prop :=
  match c.sentList with
  | [] => True
  | p :: _ =>
    if (ack - p.seq).toNat ≤ (c.sendSeq - p.seq).toNat then
      ∀ q ∈ c.sentList, q.fin = true → ack ≠ q.seq + BitVec.ofNat 32 q.appdatalen
    else 2 ^ 31 + p.appdatalen ≤ (ack - p.seq).toNat + 1

def Spaced : Nat → List TxPkt → Nat → Prop
  | x, [], s => x ≤ s
  | x, p :: list, s => ∃ y, x ≤ y ∧ p.seq = BitVec.ofNat 32 y ∧ Spaced (y + p.occupies) list s

theorem Spaced.le (h : Spaced x list s) : x ≤ s := by
  induction list generalizing x with
  | nil => exact h
  | cons p list ih =>
    obtain ⟨y, hxy, -, h⟩ := h
    have := ih h
    omega

theorem ofNat_sub_ofNat (h : y ≤ x) (hlt : x < y + 2 ^ 32) :
    (BitVec.ofNat 32 x - BitVec.ofNat 32 y).toNat = x - y := by
  rw [BitVec.toNat_sub, BitVec.toNat_ofNat, BitVec.toNat_ofNat]
  omega

theorem toInt_pos_iff (v : Seq) : 0 < v.toInt ↔ 0 < v.toNat ∧ v.toNat < 2 ^ 31 := by
  rw [BitVec.toInt_eq_toNat_cond]
  split <;> omega

theorem acked_iff (hseq : p.seq = BitVec.ofNat 32 y) (hlow : y + p.appdatalen < x + 2 ^ 31)
    (hhigh : x + 1 < y + p.appdatalen + 2 ^ 31) :
    p.acked (BitVec.ofNat 32 x) = true ↔ y + p.appdatalen ≤ x := by
  unfold TxPkt.acked netTcpSeqGreater netTcpSeqCmp
  rw [decide_eq_true_iff, toInt_pos_iff, hseq]
  have hone : (1 : Seq).toNat = 1 := rfl
  simp only [BitVec.toNat_sub, BitVec.toNat_add, BitVec.toNat_ofNat]
  omega

theorem Spaced.exists_position (h : Spaced x list s) (hp : p ∈ list) :
    ∃ y, x ≤ y ∧ p.seq = BitVec.ofNat 32 y ∧ y + p.occupies ≤ s := by
  induction list generalizing x with
  | nil => exact nomatch hp
  | cons q list ih =>
    obtain ⟨y, hxy, hseq, h⟩ := h
    rcases mem_cons.mp hp with rfl | hp
    · exact ⟨y, hxy, hseq, h.le⟩
    · obtain ⟨z, hyz, hz⟩ := ih h hp
      exact ⟨z, by omega, hz⟩

theorem ofNat_eq_add_iff (hseq : p.seq = BitVec.ofNat 32 y) (hlow : y + p.appdatalen < n + 2 ^ 31)
    (hhigh : n < y + p.appdatalen + 2 ^ 31) :
    BitVec.ofNat 32 n = p.seq + BitVec.ofNat 32 p.appdatalen ↔ n = y + p.appdatalen := by
  rw [hseq, ← BitVec.ofNat_add, ← BitVec.toNat_inj, BitVec.toNat_ofNat, BitVec.toNat_ofNat]
  omega

theorem acked_iff_of_le (hseq : p.seq = BitVec.ofNat 32 y) (hle : y + p.appdatalen ≤ n)
    (hn : n < y + 2 ^ 32) :
    p.acked (BitVec.ofNat 32 n) = true ↔ n + 1 < y + p.appdatalen + 2 ^ 31 := by
  unfold TxPkt.acked netTcpSeqGreater netTcpSeqCmp
  rw [decide_eq_true_iff, toInt_pos_iff, hseq]
  have hone : (1 : Seq).toNat = 1 := rfl
  simp only [BitVec.toNat_sub, BitVec.toNat_add, BitVec.toNat_ofNat]
  omega

theorem forall_takeWhile_covers_iff {b : Nat} (hbx : b ≤ x) (hbn : b ≤ n) (hns : n ≤ s)
    (hs : s + 1 < b + 2 ^ 31) (h : Spaced x list s) :
    (∀ p ∈ list.takeWhile (TxPkt.acked · (BitVec.ofNat 32 n)),
        Covers (BitVec.ofNat 32 n) (BitVec.ofNat 32 s) p) ↔
      ∀ p ∈ list, p.fin = true → BitVec.ofNat 32 n ≠ p.seq + BitVec.ofNat 32 p.appdatalen := by
  induction list generalizing x with
  | nil => simp
  | cons p list ih =>
    obtain ⟨y, hxy, hseq, h⟩ := h
    have hend := h.le
    have hocc : p.occupies = p.appdatalen + p.fin.toNat := rfl
    have hacked := acked_iff (p := p) (x := n) hseq (by omega) (by omega)
    by_cases hle : y + p.appdatalen ≤ n
    · have heq := ofNat_eq_add_iff (p := p) (n := n) hseq (by omega) (by omega)
      have hcovers : Covers (BitVec.ofNat 32 n) (BitVec.ofNat 32 s) p ↔ y + p.occupies ≤ n := by
        rw [Covers, hseq, ofNat_sub_ofNat (by omega) (by omega),
          ofNat_sub_ofNat (by omega) (by omega)]
        omega
      simp only [takeWhile_cons, hacked.mpr hle, if_true]
      rw [forall_mem_cons, forall_mem_cons, ih (by omega) h, ne_eq, heq, hcovers]
      refine and_congr_left fun _ => ?_
      cases hf : p.fin <;> simp [hocc, hf] <;> omega
    · have hnot : p.acked (BitVec.ofNat 32 n) = false := by simpa using mt hacked.mp hle
      simp only [takeWhile_cons, hnot]
      refine iff_of_true (by simp) fun q hq _ => ?_
      -- the number is in front of the data of the first packet, and so of all of them
      have hq' : ∃ z, q.seq = BitVec.ofNat 32 z ∧ n < z + q.appdatalen ∧ z + q.appdatalen ≤ s := by
        rcases mem_cons.mp hq with rfl | hq
        · exact ⟨y, hseq, by omega, by omega⟩
        · obtain ⟨z, hyz, hz, hzs⟩ := h.exists_position hq
          have : q.occupies = q.appdatalen + q.fin.toNat := rfl
          exact ⟨z, hz, by omega, by omega⟩
      obtain ⟨z, hz, hnz, hzs⟩ := hq'
      rw [ne_eq, ofNat_eq_add_iff hz (by omega) (by omega)]
      omega

theorem not_covers (hseq : p.seq = BitVec.ofNat 32 y) (hys : y ≤ s) (hs : s < y + 2 ^ 32)
    (hsn : s < n) (hn : n < y + 2 ^ 32) : ¬ Covers (BitVec.ofNat 32 n) (BitVec.ofNat 32 s) p := by
  rintro ⟨-, h⟩
  rw [hseq, ofNat_sub_ofNat (by omega) hn, ofNat_sub_ofNat hys hs] at h
  omega

theorem sentList_ackLoop (ack : Seq) (list : List TxPkt) (c : Conn) (valid : Bool) :
    (ackLoop ack list c valid).1.sentList = list.dropWhile (TxPkt.acked · ack) := by
  induction list generalizing c valid with
  | nil => rfl
  | cons p list ih =>
    rw [ackLoop]
    by_cases hp : p.acked ack = true
    · rw [if_pos hp, ih]
      simp [hp]
    · simp [hp]

theorem sentList_restartTimer (cfg : Config) (c : Conn) :
    (restartTimer cfg c).sentList = c.sentList := by
  unfold restartTimer
  split_ifs <;> rfl

theorem sentList_ackReceived (cfg : Config) (c : Conn) (ack : Seq) : ∃ f : TxPkt → TxPkt,
    (∀ p, (f p).seq = p.seq ∧ (f p).occupies = p.occupies) ∧
      (netTcpAckReceived cfg c ack).sentList =
        (c.sentList.dropWhile (TxPkt.acked · ack)).map f := by
  unfold netTcpAckReceived
  dsimp only
  split
  · split
    · refine ⟨fun p => if !p.queued then { p with sent := false, queued := true }
        else { p with sent := false }, fun p => ?_, ?_⟩
      · dsimp only
        split <;> exact ⟨rfl, rfl⟩
      · rw [netTcpSendData]
        simp only [sentList_restartTimer, sentList_ackLoop, map_map]
        refine map_congr_left fun p _ => ?_
        simp
    · exact ⟨id, fun p => ⟨rfl, rfl⟩, by rw [sentList_restartTimer, sentList_ackLoop, map_id]⟩
  · exact ⟨id, fun p => ⟨rfl, rfl⟩, by rw [sentList_ackLoop, map_id]⟩

theorem removed_eq (cfg : Config) (c : Conn) (ack : Seq) :
    removed cfg c ack = c.sentList.takeWhile (TxPkt.acked · ack) := by
  have happ := congrArg length
    (takeWhile_append_dropWhile (p := (TxPkt.acked · ack)) (l := c.sentList))
  rw [length_append] at happ
  have hlen : c.sentList.length - (c.sentList.dropWhile (TxPkt.acked · ack)).length =
      (c.sentList.takeWhile (TxPkt.acked · ack)).length := by omega
  obtain ⟨f, -, hf⟩ := sentList_ackReceived cfg c ack
  rw [removed, hf, length_map, hlen]
  exact (prefix_iff_eq_take.mp ( takeWhile_prefix _)).symm

def Window (c : Conn) : Prop :=
  ∃ x s, c.sendSeq = BitVec.ofNat 32 s ∧ Spaced x c.sentList s ∧ s + 1 < x + 2 ^ 31

theorem Spaced.mono {t : Nat} (h : Spaced x list s) (hst : s ≤ t) : Spaced x list t := by
  induction list generalizing x with
  | nil => exact Nat.le_trans h hst
  | cons p list ih =>
    obtain ⟨y, hxy, hseq, h⟩ := h
    exact ⟨y, hxy, hseq, ih h⟩

theorem Spaced.concat (h : Spaced x list s) (hp : p.seq = BitVec.ofNat 32 s) :
    Spaced x (list ++ [p]) (s + p.occupies) := by
  induction list generalizing x with
  | nil => exact ⟨s, h, hp, Nat.le_refl _⟩
  | cons q list ih =>
    obtain ⟨y, hxy, hseq, h⟩ := h
    exact ⟨y, hxy, hseq, ih h⟩

theorem Spaced.dropWhile (f : TxPkt → Bool) (h : Spaced x list s) :
    ∃ y, x ≤ y ∧ Spaced y (list.dropWhile f) s := by
  induction list generalizing x with
  | nil => exact ⟨x, Nat.le_refl x, h⟩
  | cons p list ih =>
    have hspaced := h
    obtain ⟨y, hxy, hseq, h⟩ := h
    rw [dropWhile_cons]
    split
    · obtain ⟨z, hyz, hz⟩ := ih h
      exact ⟨z, by omega, hz⟩
    · exact ⟨x, Nat.le_refl x, hspaced⟩

theorem Spaced.map {f : TxPkt → TxPkt}
    (hf : ∀ p, (f p).seq = p.seq ∧ (f p).occupies = p.occupies) (h : Spaced x list s) :
    Spaced x (list.map f) s := by
  induction list generalizing x with
  | nil => exact h
  | cons p list ih =>
    obtain ⟨y, hxy, hseq, h⟩ := h
    refine ⟨y, hxy, (hf p).1.trans hseq, ?_⟩
    rw [(hf p).2]
    exact ih h

theorem Window.rebase (h : Window c) : ∃ x s, c.sendSeq = BitVec.ofNat 32 s ∧
    Spaced x c.sentList s ∧ s = x + outstanding c ∧ s + 1 < x + 2 ^ 31 := by
  obtain ⟨x, s, hsend, hspaced, hs⟩ := h
  cases hlist : c.sentList with
  | nil => exact ⟨s, s, hsend, Nat.le_refl s, by simp [outstanding, hlist], by omega⟩
  | cons p list =>
    rw [hlist] at hspaced
    obtain ⟨y, hxy, hseq, hspaced⟩ := hspaced
    have hle := hspaced.le
    refine ⟨y, s, hsend, ⟨y, Nat.le_refl y, hseq, hspaced⟩, ?_, by omega⟩
    simp only [outstanding, hlist]
    rw [hsend, hseq, ofNat_sub_ofNat (by omega) (by omega)]
    omega

theorem sendSeq_finAcked (c : Conn) : (finAcked c).sendSeq = c.sendSeq := by
  unfold finAcked
  split
  · exact (sendSeq_changeState ..).1
  · exact (sendSeq_changeState ..).1
  · rfl

theorem sendSeq_ackLoop (ack : Seq) (list : List TxPkt) (c : Conn) (valid : Bool) :
    (ackLoop ack list c valid).1.sendSeq = c.sendSeq := by
  induction list generalizing c valid with
  | nil => rfl
  | cons p list ih =>
    rw [ackLoop]
    split
    · rw [ih]
      split
      · exact sendSeq_finAcked c
      · rfl
    · rfl

theorem sendSeq_sendData (c : Conn) : (netTcpSendData c).sendSeq = c.sendSeq := by
  obtain ⟨_, _, h⟩ := sendData_eq c
  rw [h]

theorem sendSeq_ackReceived (cfg : Config) (c : Conn) (ack : Seq) :
    (netTcpAckReceived cfg c ack).sendSeq = c.sendSeq := by
  have htimer : ∀ d : Conn, (restartTimer cfg d).sendSeq = d.sendSeq := by
    intro d
    unfold restartTimer
    split_ifs <;> rfl
  unfold netTcpAckReceived
  dsimp only
  split
  · split
    · rw [sendSeq_sendData]
      exact (htimer _).trans (sendSeq_ackLoop ..)
    · exact (htimer _).trans (sendSeq_ackLoop ..)
  · exact sendSeq_ackLoop ..

theorem window_queueData (h : Window c) {len : Fin (2 ^ 16)}
    (hok : outstanding c + len + 2 < 2 ^ 31) (alloc : Bool) :
    Window (netTcpQueueData c len alloc) := by
  obtain ⟨x, s, hsend, hspaced, hs, hlt⟩ := h.rebase
  obtain ⟨hlist, ⟨hnone, hseq⟩ | ⟨f, hsome, hseq⟩⟩ := prepareSegment_spec c false true len alloc
  · rw [netTcpQueueData, hnone]
    exact ⟨x, s, hseq.trans hsend, hlist ▸ hspaced, by omega⟩
  · have hf := f.toNat_le
    rw [netTcpQueueData, hsome]
    refine ⟨x, s + (len + f.toNat), ?_, ?_, by omega⟩
    · rw [hseq, hsend, BitVec.ofNat_add, BitVec.ofNat_add, BitVec.add_assoc,
        BitVec.add_comm (BitVec.ofNat 32 f.toNat)]
    · rw [hlist]
      exact hspaced.concat hsend

theorem window_step {a : QueueAct} (h : Window c) (hok : QueueOk c a)
    (hstep : queueStep cfg c a = some c') : Window c' := by
  cases a with
  | queue len alloc => exact Option.some.inj hstep ▸ window_queueData h hok alloc
  | prepare fin ack alloc =>
    cases hstep
    have hok : outstanding c + 2 < 2 ^ 31 := hok
    obtain ⟨x, s, hsend, hspaced, hs, hlt⟩ := h.rebase
    obtain ⟨hlist, ⟨-, hseq⟩ | ⟨f, -, hseq⟩⟩ := prepareSegment_spec c fin ack 0 alloc
    · exact ⟨x, s, hseq.trans hsend, hlist ▸ hspaced, by omega⟩
    · have hf := f.toNat_le
      refine ⟨x, s + f.toNat, ?_, ?_, by omega⟩
      · rw [hseq, hsend, BitVec.ofNat_add]
      · rw [hlist]
        exact hspaced.mono (Nat.le_add_right ..)
  | ack ack =>
    cases hstep
    obtain ⟨x, s, hsend, hspaced, hlt⟩ := h
    obtain ⟨f, hf, hlist⟩ := sentList_ackReceived cfg c ack
    obtain ⟨y, hxy, hdrop⟩ := hspaced.dropWhile (TxPkt.acked · ack)
    refine ⟨y, s, (sendSeq_ackReceived ..).trans hsend, ?_, by omega⟩
    rw [hlist]
    exact hdrop.map hf
  | enter state => exact Option.some.inj hstep ▸ h

theorem Window.removed_covers_iff (h : Window c) (cfg : Config) (ack : Seq) :
    (∀ p ∈ removed cfg c ack, Covers ack c.sendSeq p) ↔ AckOk c ack := by
  obtain ⟨x, s, hsend, hspaced, hlt⟩ := h
  rw [removed_eq, AckOk]
  cases hlist : c.sentList with
  | nil => simp
  | cons p list =>
    rw [hlist] at hspaced
    obtain ⟨y, hxy, hseq, hrest⟩ := id hspaced
    have hend := hrest.le
    have hocc : p.occupies = p.appdatalen + p.fin.toNat := rfl
    -- the position of the acknowledgement, reckoned from the first packet on
    obtain ⟨n, hyn, hny, rfl⟩ : ∃ n, y ≤ n ∧ n < y + 2 ^ 32 ∧ ack = BitVec.ofNat 32 n := by
      refine ⟨y + (ack - BitVec.ofNat 32 y).toNat, Nat.le_add_right .., ?_, ?_⟩
      · omega
      · rw [BitVec.ofNat_add, BitVec.ofNat_toNat, BitVec.setWidth_eq, BitVec.add_comm,
          BitVec.sub_add_cancel]
    dsimp only
    rw [hsend, hseq, ofNat_sub_ofNat hyn hny, ofNat_sub_ofNat (by omega) (by omega)]
    split
    · exact forall_takeWhile_covers_iff (b := x) (by omega) (by omega) (by omega) hlt hspaced
    · have hacked := acked_iff_of_le (p := p) (n := n) hseq (by omega) hny
      by_cases ha : p.acked (BitVec.ofNat 32 n) = true
      · have hnot : ¬ Covers (BitVec.ofNat 32 n) (BitVec.ofNat 32 s) p :=
          not_covers hseq (by omega) (by omega) (by omega) hny
        refine iff_of_false (fun hall => hnot (hall p ?_)) ?_
        · simp [ha]
        · have := hacked.mp ha
          omega
      · refine iff_of_true ?_ ?_
        · simp [ha]
        · have := mt hacked.mpr ha
          omega

theorem window_of_nil (h : c.sentList = []) : Window c :=
  ⟨c.sendSeq.toNat, c.sendSeq.toNat, by simp, h ▸ Nat.le_refl _, by omega⟩

theorem removed_covered_iff {start : Conn} (hstart : start.sentList = [])
    (hrun : GuardedRun (queueStep cfg) QueueOk start c) (ack : Seq) :
    (∀ p ∈ removed cfg c ack, Covers ack c.sendSeq p) ↔ AckOk c ack := by
  have h : Window c :=
    hrun.invariant (fun _ _ _ => window_step) (window_of_nil hstart)
  exact h.removed_covers_iff cfg ack

def tenQueued : Conn := netTcpQueueData (freshConn true) 10 true

theorem removed_covered_iff_ten :
    (∀ p ∈ removed ⟨false, 9⟩ tenQueued 110#32, Covers 110#32 tenQueued.sendSeq p) ↔
      AckOk tenQueued 110#32 := by
  have hok : QueueOk (freshConn true) (.queue 10 true) := by
    show outstanding (freshConn true) + 10 + 2 < 2 ^ 31
    decide
  have hrun : GuardedRun (queueStep ⟨false, 9⟩) QueueOk (freshConn true) tenQueued :=
    .single ⟨.queue 10 true, hok, rfl⟩
  exact removed_covered_iff rfl hrun 110#32

theorem unsent_removes : tenQueued.sendSeq = 110#32 ∧
    (netTcpAckReceived ⟨false, 9⟩ tenQueued 200#32).sentList = [] ∧
    ¬ ∀ p ∈ removed ⟨false, 9⟩ tenQueued 200#32, Covers 200#32 tenQueued.sendSeq p := by
  refine ⟨rfl, rfl, fun h => ?_⟩
  have hmem : ⟨100#32, false, 10, false, false⟩ ∈ removed ⟨false, 9⟩ tenQueued 200#32 :=
    mem_singleton.mpr rfl
  exact absurd (h _ hmem).2 (by decide)

open Option

variable {c'' d : Conn} {seg : Segment} {alloc : Bool} {app : List AppAct} {new : TcpState}

def FinMove (m : TcpState × TcpState) : Prop :=
  m = (.finWait1, .finWait2) ∨ m = (.closing, .timeWait) ∨ m = (.lastAck, .closed)

def CoversFin (c : Conn) (fin ack : Seq) : Prop :=
  1 ≤ (ack - fin).toNat ∧ (ack - fin).toNat ≤ (c.sendSeq - fin).toNat

def MovesOnFinAck (c : Conn) (a : Act) (c' : Conn) : Prop :=
  ∀ fin, c.fin = some fin → ∀ m ∈ c'.moves.drop c.moves.length, FinMove m →
    ∃ seg alloc app, a = .segment seg alloc app ∧ seg.ackFlag = true ∧ CoversFin c fin seg.ack

structure AckTaken (c : Conn) (seg : Segment) : Prop extends Next c seg where
  handler : c.handler = true
  ackFlag : seg.ackFlag = true

def AcksFin (c : Conn) : Act → Prop
  | .segment seg _ _ => AckTaken c seg → c.state = .finWait1 ∨ c.state = .lastAck →
      ∀ fin, c.fin = some fin → CoversFin c fin seg.ack
  | .ackTimeout => c.state = .lastAck → c.fin = none
  | _ => True

def TcpState.last : TcpState → Bool
  | .lastAck | .closed => true
  | _ => false

def FinQueued (c : Conn) : Prop := ∀ p ∈ c.sentList, p.fin = true → c.state.last = true

structure Tame (c c' : Conn) : Prop where
  moves : ∃ ms, c'.moves = c.moves ++ ms ∧ ∀ m ∈ ms, ¬ FinMove m
  queued : FinQueued c → FinQueued c'

theorem Tame.trans (h : Tame c c') (h' : Tame c' c'') : Tame c c'' := by
  obtain ⟨ms, hms, hnot⟩ := h.moves
  obtain ⟨ms', hms', hnot'⟩ := h'.moves
  refine ⟨⟨ms ++ ms', by rw [hms', hms, append_assoc], fun m hm => ?_⟩,
    fun hq => h'.queued (h.queued hq)⟩
  exact (mem_append.mp hm).elim (hnot m) (hnot' m)

structure Still (c c' : Conn) : Prop where
  moves : c'.moves = c.moves
  state : c'.state = c.state
  packets : ∀ p ∈ c'.sentList, ∃ q ∈ c.sentList, q.fin = p.fin

theorem Still.trans (h : Still c c') (h' : Still c' c'') : Still c c'' := by
  refine ⟨h'.moves.trans h.moves, h'.state.trans h.state, fun p hp => ?_⟩
  obtain ⟨q, hq, hqp⟩ := h'.packets p hp
  obtain ⟨r, hr, hrq⟩ := h.packets q hq
  exact ⟨r, hr, hrq.trans hqp⟩

theorem Still.tame (h : Still c c') : Tame c c' := by
  refine ⟨⟨[], by rw [h.moves, append_nil], by simp⟩, fun hq p hp hfin => ?_⟩
  obtain ⟨q, hmem, hqp⟩ := h.packets p hp
  rw [h.state]
  exact hq q hmem (hqp.trans hfin)

theorem still_of_eq (hmoves : c'.moves = c.moves) (hstate : c'.state = c.state)
    (hlist : c'.sentList = c.sentList) : Still c c' :=
  ⟨hmoves, hstate, fun p hp => ⟨p, hlist ▸ hp, rfl⟩⟩

theorem tame_of_eq (hmoves : c'.moves = c.moves) (hstate : c'.state = c.state)
    (hlist : c'.sentList = c.sentList) : Tame c c' :=
  (still_of_eq hmoves hstate hlist).tame

theorem Tame.refl (c : Conn) : Tame c c := tame_of_eq rfl rfl rfl

theorem tame_changeState (hmove : ¬ FinMove (c.state, new))
    (hlast : c.state.last = true → new.last = true) : Tame c (netTcpChangeState c new) := by
  unfold netTcpChangeState
  split
  · exact .refl c
  · exact ⟨⟨_, rfl, by simpa using hmove⟩, fun h p hp hfin => hlast (h p hp hfin)⟩

theorem tame_release (c : Conn) : Tame c (netTcpRelease c) :=
  ⟨⟨[], (append_nil _).symm, by simp⟩, nofun⟩

theorem tame_unref (c : Conn) : Tame c (netContextUnref c) := by
  unfold netContextUnref
  split
  · exact tame_of_eq rfl rfl rfl
  · exact { tame_release { c with refcount := 0 } with }

theorem tame_ackFlagged (c : Conn) (fin : Bool) : Tame c (ackFlagged c fin).1 := by
  unfold ackFlagged
  split
  · next h => split <;> exact tame_changeState (by simp [h, FinMove]) (by simp [h, TcpState.last])
  · next h => exact tame_changeState (by simp [h, FinMove]) (by simp [h, TcpState.last])
  · next h =>
    refine { tame_changeState (c := { c with shutdown := true }) ?_ ?_ with }
    · simp [FinMove]
    · simp [TcpState.last]
  · exact .refl c

theorem tame_finFlagged (c : Conn) : Tame c (finFlagged c) := by
  unfold finFlagged
  split
  · next h =>
    rcases h with h | h <;>
      exact tame_changeState (by simp [FinMove]) (by simp [h, TcpState.last])
  · exact .refl c

theorem tame_prepareSegment (c : Conn) (fin ack : Bool) (dataLen : Nat) (alloc : Bool) :
    Tame c (netTcpPrepareSegment c fin ack dataLen alloc).1 := by
  unfold netTcpPrepareSegment
  generalize hf : (if ack then ackFlagged c fin else (c, fin)) = flagged
  have hflagged : Tame c flagged.1 := by
    rw [← hf]
    split
    · exact tame_ackFlagged c fin
    · exact .refl c
  have hfin : Tame c (if flagged.2 then finFlagged flagged.1 else flagged.1) := by
    split
    · exact hflagged.trans (tame_finFlagged _)
    · exact hflagged
  split
  · exact hfin.trans (tame_of_eq rfl rfl rfl)
  · exact hfin

theorem tame_sendPrepared {r : Conn × Option (Seq × Bool)} (h : Tame c r.1) :
    Tame c (sendPrepared r) := by
  unfold sendPrepared
  split
  · exact h.trans (tame_of_eq rfl rfl rfl)
  · exact h

theorem tame_sendAck (c : Conn) (force alloc : Bool) : Tame c (sendAck c force alloc) := by
  unfold sendAck netTcpPrepareAck
  split
  · exact .refl c
  · split <;> exact tame_sendPrepared (tame_prepareSegment ..)

theorem state_of_queued_fin {dataLen : Nat} {seq : Seq}
    (h : (netTcpPrepareSegment c false true dataLen alloc).2 = some (seq, true)) :
    (netTcpPrepareSegment c false true dataLen alloc).1.state = .lastAck := by
  have hflagged : (ackFlagged c false).2 = true → (ackFlagged c false).1.state = .lastAck := by
    unfold ackFlagged
    split <;> simp [state_changeState]
  unfold netTcpPrepareSegment at h ⊢
  cases alloc with
  | false => exact nomatch h
  | true =>
    simp only [if_true, some.injEq, Prod.mk.injEq] at h ⊢
    rw [if_pos h.2, finFlagged, if_neg (by simp [hflagged h.2])]
    exact hflagged h.2

theorem tame_queueData (c : Conn) (len : Fin (2 ^ 16)) (alloc : Bool) :
    Tame c (netTcpQueueData c len alloc) := by
  have h := tame_prepareSegment c false true len alloc
  unfold netTcpQueueData
  dsimp only
  split
  · next seq fin hr =>
    refine h.trans ⟨⟨[], (append_nil _).symm, by simp⟩, fun hq p hp hfin => ?_⟩
    rcases mem_append.mp hp with hp | hp
    · exact hq p hp hfin
    · obtain rfl := mem_singleton.mp hp
      obtain rfl : fin = true := hfin
      have := state_of_queued_fin hr
      simp [this, TcpState.last]
  · exact h

theorem still_sendData (c : Conn) : Still c (netTcpSendData c) := by
  obtain ⟨_, _, h⟩ := sendData_eq c
  rw [h]
  refine ⟨rfl, rfl, fun p hp => ?_⟩
  obtain ⟨q, hq, rfl⟩ := mem_map.mp hp
  refine ⟨q, hq, ?_⟩
  split <;> rfl

theorem tame_finReceived (c : Conn) : Tame c (finReceived c) := by
  unfold finReceived
  split
  · next h =>
    exact (tame_changeState (by simp [FinMove]) (by simp [h, TcpState.last])).trans
      (tame_of_eq rfl rfl rfl)
  · next h =>
    exact (tame_changeState (by simp [h, FinMove]) (by simp [h, TcpState.last])).trans
      (tame_of_eq rfl rfl rfl)
  · exact tame_of_eq rfl rfl rfl

theorem tame_appStep {a : AppAct} (h : appStep c a = some c') : Tame c c' := by
  cases a <;> rw [appStep] at h <;> split_ifs at h <;> cases h
  · exact .refl c
  · exact tame_of_eq rfl rfl rfl
  · unfold netContextUpdateRecvWnd
    dsimp only
    split <;> exact tame_of_eq rfl rfl rfl
  · exact .refl c
  · exact (tame_queueData ..).trans (still_sendData _).tame
  · unfold netContextPut
    dsimp only
    split
    · exact { tame_unref { c with recvCb := false } with }
    · exact { tame_sendPrepared (tame_prepareSegment ..) with }

theorem tame_callRecvCb (h : callRecvCb c app = some c') : Tame c c' := by
  unfold callRecvCb at h
  split at h
  · exact run_invariant (P := Tame c) (fun _ _ _ ht hs => ht.trans (tame_appStep hs)) (.refl c) h
  · exact some.inj h ▸ .refl c

theorem tame_callRecvCb_unref (h : (callRecvCb c app).map netContextUnref = some c') :
    Tame c c' := by
  obtain ⟨d, hd, rfl⟩ := map_eq_some_iff.mp h
  exact (tame_callRecvCb hd).trans (tame_unref d)

theorem tame_cleanUp (h : cleanUp c app = some c') : Tame c c' := by
  unfold cleanUp at h
  dsimp only at h
  generalize hd : (if c.state = .timeWait then { c with timewaitTimer := true } else c) = d at h
  have hcd : Tame c d := by
    rw [← hd]
    split
    · exact tame_of_eq rfl rfl rfl
    · exact .refl c
  split at h
  · exact hcd.trans (tame_callRecvCb_unref h)
  · exact some.inj h ▸ hcd

theorem tame_ackData (h : ackData c seg alloc app = some c') : Tame c c' := by
  unfold ackData at h
  split at h
  · exact nomatch h
  · exact { (tame_sendAck _ false alloc).trans (tame_cleanUp h) with }

theorem tame_tcpData (h : tcpData c seg alloc app = some c') : Tame c c' := by
  unfold tcpData at h
  split at h
  · exact some.inj h ▸ .refl c
  · split at h
    · exact tame_ackData h
    · obtain ⟨d, hd, h⟩ := bind_eq_some_iff.mp h
      refine .trans ?_ (tame_ackData h)
      unfold packetReceived at hd
      split at hd
      · exact { tame_callRecvCb hd with }
      · exact some.inj hd ▸ .refl c

theorem FinQueued.finAcked_eq (h : FinQueued c) {p : TxPkt} (hp : p ∈ c.sentList) :
    (if p.fin then finAcked c else c) = c := by
  split
  · next hfin =>
    have hlast := h p hp hfin
    unfold finAcked
    split <;> simp_all [TcpState.last]
  · rfl

theorem still_ackLoop {list : List TxPkt} (h : ∀ p ∈ list, (if p.fin then finAcked c else c) = c)
    (hlist : list ⊆ c.sentList) (ack : Seq) (valid : Bool) :
    Still c (ackLoop ack list c valid).1 := by
  induction list generalizing valid with
  | nil => exact ⟨rfl, rfl, nofun⟩
  | cons p list ih =>
    obtain ⟨hp, h⟩ := forall_mem_cons.mp h
    rw [ackLoop, hp]
    split
    · exact ih h (subset_of_cons_subset hlist) true
    · exact ⟨rfl, rfl, fun q hq => ⟨q, hlist hq, rfl⟩⟩

theorem still_restartTimer (cfg : Config) (c : Conn) : Still c (restartTimer cfg c) := by
  unfold restartTimer
  split_ifs <;> exact still_of_eq rfl rfl rfl

theorem FinQueued.still_ackReceived (h : FinQueued c) (cfg : Config) (ack : Seq) :
    Still c (netTcpAckReceived cfg c ack) := by
  have hloop : Still c (ackLoop ack c.sentList c false).1 :=
    still_ackLoop (fun _ hp => h.finAcked_eq hp) (List.Subset.refl _) ack false
  have htimer := hloop.trans (still_restartTimer cfg _)
  unfold netTcpAckReceived
  dsimp only
  split
  · split
    · have hunsent : ∀ d : Conn, Still d { d with
          sentList := d.sentList.map fun p => { p with sent := false } } := by
        refine fun d => ⟨rfl, rfl, fun p hp => ?_⟩
        obtain ⟨q, hq, rfl⟩ := mem_map.mp hp
        exact ⟨q, hq, rfl⟩
      exact (htimer.trans (hunsent _)).trans (still_sendData _)
    · exact htimer
  · exact hloop

theorem moves_changeState (h : c.state ≠ new) :
    (netTcpChangeState c new).moves = c.moves ++ [(c.state, new)] := by
  rw [netTcpChangeState, if_neg h]

theorem FinQueued.moves_tcpAck (h : FinQueued c) (cfg : Config) (ack : Seq) :
    (tcpAck cfg c ack).moves = c.moves ++
      if c.state = .finWait1 ∨ c.state = .lastAck then [(c.state, ackedState c.state)] else [] := by
  have hstill := h.still_ackReceived cfg ack
  unfold tcpAck
  dsimp only
  rw [← hstill.moves, ← hstill.state]
  split
  · next hs => rw [moves_changeState (by simp [hs]), hs, if_pos (.inl rfl), ackedState]
  · next hs => rw [moves_changeState (by simp [hs]), hs, if_pos (.inr rfl), ackedState]
  · next h1 h2 => rw [if_neg (not_or.mpr ⟨h1, h2⟩), append_nil]

theorem FinQueued.tcpAck (h : FinQueued c) (cfg : Config) (ack : Seq) :
    FinQueued (tcpAck cfg c ack) := by
  have hstill := h.still_ackReceived cfg ack
  have hlast : c.state.last = true → (Tcp.tcpAck cfg c ack).state.last = true := by
    rw [state_tcpAck, hstill.state]
    cases c.state <;> decide
  have hlist : (Tcp.tcpAck cfg c ack).sentList = (netTcpAckReceived cfg c ack).sentList := by
    unfold Tcp.tcpAck
    dsimp only
    split
    · exact (sendSeq_changeState ..).2
    · exact (sendSeq_changeState ..).2
    · rfl
  intro p hp hfin
  obtain ⟨q, hq, hqp⟩ := hstill.packets p (hlist ▸ hp)
  exact hlast (h q hq (hqp.trans hfin))

theorem tcpEstablished_tame (hhandler : c.handler = true)
    (h : tcpEstablished cfg c seg alloc app = some c') :
    (¬ AckTaken c seg ∧ Tame c c') ∨ (AckTaken c seg ∧ Tame (tcpAck cfg c seg.ack) c') := by
  by_cases hnext : Next c seg
  case neg =>
    refine .inl ⟨fun ht => hnext ht.toNext, ?_⟩
    rcases tcpEstablished_of_not_next hnext h with h | h | h
    · exact h ▸ .refl c
    · exact h ▸ tame_sendAck c true alloc
    · exact tame_callRecvCb_unref h
  rw [tcpEstablished_of_next hnext] at h
  dsimp only at h
  generalize hd : (if seg.ackFlag then tcpAck cfg c seg.ack else c) = d at h
  have htame : Tame d c' := by
    split at h
    · exact tame_cleanUp h
    · refine .trans ?_ (tame_tcpData h)
      split
      · exact tame_finReceived _
      · exact .refl _
  split at hd
  · next hf => exact .inr ⟨⟨hnext, hhandler, hf⟩, hd ▸ htame⟩
  · next hf => exact .inl ⟨fun ht => hf ht.ackFlag, hd ▸ htame⟩

theorem tame_handleTimewaitTimeout (h : handleTimewaitTimeout c app = some c') : Tame c c' := by
  unfold handleTimewaitTimeout at h
  split at h
  · next hs =>
    have hmove : Tame c (netTcpChangeState c .closed) :=
      tame_changeState (by simp [hs, FinMove]) (by simp [TcpState.last])
    exact hmove.trans (tame_callRecvCb_unref h)
  · exact some.inj h ▸ .refl c

theorem tame_tcpRetryExpired (h : tcpRetryExpired cfg c app = some c') : Tame c c' := by
  unfold tcpRetryExpired at h
  split at h
  · next p list hlist =>
    dsimp only at h
    split at h
    · exact { tame_callRecvCb_unref h with }
    · cases h
      refine Still.tame ⟨rfl, rfl, fun q hq => ?_⟩
      rw [hlist]
      rcases mem_cons.mp hq with rfl | hq
      · exact ⟨p, mem_cons_self, rfl⟩
      · exact ⟨q, mem_cons_of_mem _ hq, rfl⟩
  · cases h
    split
    · exact tame_unref c
    · exact .refl c

theorem tame_transmitted (c : Conn) (n : Nat) (ok : Bool) : Tame c { c with
    sentList := c.sentList.modify n fun p => { p with sent := ok, queued := false } } := by
  refine Still.tame ⟨rfl, rfl, fun p hp => ?_⟩
  obtain ⟨i, hi⟩ := mem_iff_getElem?.mp hp
  rw [getElem?_modify] at hi
  obtain ⟨q, hq, rfl⟩ := map_eq_some_iff.mp hi
  refine ⟨q, mem_of_getElem? hq, ?_⟩
  split <;> rfl

variable {a : Act}

theorem step_tame (h : step cfg c a = some c') :
    (∃ seg alloc app, a = .segment seg alloc app ∧ AckTaken c seg ∧
      Tame (tcpAck cfg c seg.ack) c') ∨
    (a = .ackTimeout ∧ c.state = .lastAck ∧
      Tame (netTcpChangeState { c with ackTimer := false } .closed) c') ∨
    (AcksFin c a ∧ Tame c c') := by
  cases a with
  | segment seg alloc app =>
    rw [step] at h
    split at h
    · next hhandler =>
      rcases tcpEstablished_tame hhandler h with ⟨hnot, ht⟩ | ⟨hack, ht⟩
      · exact .inr (.inr ⟨fun hack => absurd hack hnot, ht⟩)
      · exact .inl ⟨seg, alloc, app, rfl, hack, ht⟩
    · next hhandler =>
      cases h
      exact .inr (.inr ⟨fun hack => absurd hack.handler hhandler, .refl c⟩)
  | app a => exact .inr (.inr ⟨trivial, tame_appStep h⟩)
  | ackTimeout =>
    rw [step] at h
    split_ifs at h
    cases h
    unfold handleAckTimeout
    split
    · next hs => exact .inr (.inl ⟨rfl, hs, tame_unref _⟩)
    · next hs => exact .inr (.inr ⟨fun hl => absurd hl hs, tame_of_eq rfl rfl rfl⟩)
  | finTimeout =>
    rw [step] at h
    split_ifs at h
    exact .inr (.inr ⟨trivial, some.inj h ▸ { tame_unref _ with }⟩)
  | timewaitTimeout app =>
    rw [step] at h
    split_ifs at h
    exact .inr (.inr ⟨trivial, { tame_handleTimewaitTimeout h with }⟩)
  | retryExpired app =>
    rw [step] at h
    split_ifs at h
    exact .inr (.inr ⟨trivial, { tame_tcpRetryExpired h with }⟩)
  | transmitted n ok => exact .inr (.inr ⟨trivial, some.inj h ▸ tame_transmitted c n ok⟩)

theorem finQueued_step (hq : FinQueued c) (h : step cfg c a = some c') : FinQueued c' := by
  rcases step_tame h with ⟨seg, _, _, -, -, ht⟩ | ⟨-, -, ht⟩ | ⟨-, ht⟩
  · exact ht.queued (hq.tcpAck cfg seg.ack)
  · refine ht.queued fun p _ _ => ?_
    rw [state_changeState]
    rfl
  · exact ht.queued hq

theorem Tame.mem_drop_iff (h : Tame d c') {ms : List (TcpState × TcpState)}
    (hd : d.moves = c.moves ++ ms) {m : TcpState × TcpState} (hm : FinMove m) :
    m ∈ c'.moves.drop c.moves.length ↔ m ∈ ms := by
  obtain ⟨_, hms', hnot⟩ := h.moves
  rw [hms', hd, append_assoc, drop_left, mem_append]
  exact or_iff_left fun hmem => hnot m hmem hm

theorem movesOnFinAck_step (hq : FinQueued c) (h : step cfg c a = some c') :
    MovesOnFinAck c a c' ↔ AcksFin c a := by
  rcases step_tame h with ⟨seg, alloc, app, rfl, hack, ht⟩ | ⟨rfl, hs, ht⟩ | ⟨hok, ht⟩
  · have hms := hq.moves_tcpAck cfg seg.ack
    constructor
    · intro hmoves _ hs fin hfin
      have hmove : FinMove (c.state, ackedState c.state) := by
        rcases hs with hs | hs <;> simp [hs, ackedState, FinMove]
      rw [if_pos hs] at hms
      obtain ⟨_, _, _, heq, -, hcov⟩ :=
        hmoves fin hfin _ ((ht.mem_drop_iff hms hmove).mpr (mem_singleton_self _)) hmove
      cases heq
      exact hcov
    · intro hok fin hfin m hm hmove
      by_cases hs : c.state = .finWait1 ∨ c.state = .lastAck
      · exact ⟨seg, alloc, app, rfl, hack.ackFlag, hok hack hs fin hfin⟩
      · rw [if_neg hs] at hms
        cases (ht.mem_drop_iff hms hmove).mp hm
  · have hms : (netTcpChangeState { c with ackTimer := false } .closed).moves =
        c.moves ++ [(.lastAck, .closed)] := by
      rw [moves_changeState (by simp [hs])]
      rw [hs]
    have hmove : FinMove (.lastAck, .closed) := by simp [FinMove]
    constructor
    · intro hmoves _
      by_contra hne
      obtain ⟨fin, hfin⟩ := ne_none_iff_exists'.mp hne
      obtain ⟨_, _, _, heq, -⟩ :=
        hmoves fin hfin _ ((ht.mem_drop_iff hms hmove).mpr (mem_singleton_self _)) hmove
      cases heq
    · intro hok fin hfin
      cases hfin.symm.trans (hok hs)
  · refine iff_of_true (fun fin _ m hm hmove => ?_) hok
    cases (ht.mem_drop_iff (append_nil _).symm hmove).mp hm

def tenAndFin : Conn :=
  ([Act.app (.send 10 true), .app (.put true)].foldlM (step ⟨false, 9⟩) (freshConn true)).getD
    (freshConn true)

def ackSegment (ack : Seq) : Segment := ⟨500#32, ack, false, false, true, [], by decide⟩

end Zephyr.Tcp
