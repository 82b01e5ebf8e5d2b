import Zephyr.MeshReplay

/-! The sequence numbers of what a node sends. Three paths take them from one counter of 24 bits,
and only one of them looks at how far it has come. The payload of an unsegmented message is
encrypted with the counter as it stands before any PDU takes a number. -/

namespace Zephyr.Mesh

open List

/-- The node with the numbers that have been taken and those that PDUs have been encrypted with,
each with the IV index. -/
structure Sender where
  net : Net
  taken : List (BitVec 32 × Seq)
  encrypted : List (BitVec 32 × Seq)

def ivUpdateSeqLimit : Nat := 8000000

section

variable (cfg : Config) (s : Sender)

def numberPdu (encrypts : Bool) : Sender where
  net := { s.net with seq := s.net.seq + 1 }
  taken := s.taken ++ [(s.net.iviTx, s.net.seq)]
  encrypted := if encrypts then s.encrypted ++ [(s.net.iviTx, s.net.seq)] else s.encrypted

def btMeshNetEncode (room : Bool) : Sender := if room then numberPdu s true else s

def ivUpdateStep (ivIndex : BitVec 32) (ivUpdate : Bool) (now : Int)
    (txInProgress : Bool) : Sender :=
  { s with net := (btMeshNetIvUpdate cfg s.net ivIndex ivUpdate now txInProgress).1 }

/-- `bt_mesh_net_resend`: the old PDU is decrypted first, and the new one may fail. -/
def btMeshNetResend (opens encrypts : Bool) (now : Int) (txInProgress : Bool) : Sender :=
  if !opens then s
  else
    let s := numberPdu s true
    if encrypts && !s.net.ivUpdate && decide (ivUpdateSeqLimit < s.net.seq.toNat) then
      ivUpdateStep cfg s (s.net.ivIndex + 1) true now txInProgress
    else s

def encodeFriendCtl (cred : Bool) : Sender := numberPdu s cred

/-- `friend_lpn_enqueue_tx`; a Friend Update may be put in front of the PDU. -/
def friendLpnEnqueueTx (cred : Bool) (update : Option Bool) : Sender :=
  match cred, update with
  | true, some updateCred => encodeFriendCtl (numberPdu s true) updateCred
  | _, _ => numberPdu s cred

inductive SendAct where
  | netSend (room : Bool)
  | netResend (opens encrypts : Bool) (now : Int) (txInProgress : Bool)
  | friendCtl (cred : Bool)
  | friendTx (cred : Bool) (update : Option Bool)
  | ivUpdate (ivIndex : BitVec 32) (ivUpdate : Bool) (now : Int) (txInProgress : Bool)

def sendStep : SendAct → Option Sender
  | .netSend room => some (btMeshNetEncode s room)
  | .netResend opens encrypts now txInProgress =>
    some (btMeshNetResend cfg s opens encrypts now txInProgress)
  | .friendCtl cred => some (encodeFriendCtl s cred)
  | .friendTx cred update => some (friendLpnEnqueueTx s cred update)
  | .ivUpdate ivIndex ivUpdate now txInProgress =>
    some (ivUpdateStep cfg s ivIndex ivUpdate now txInProgress)

def used : Nat := s.taken.countP fun p => p.1 = s.net.iviTx

def SendAct.numbers : SendAct → Nat
  | .netSend room => room.toNat
  | .netResend opens _ _ _ => opens.toNat
  | .friendCtl _ => 1
  | .friendTx true (some _) => 2
  | .friendTx _ _ => 1
  | .ivUpdate .. => 0

def NumbersLeft (a : SendAct) : Prop := used s + a.numbers ≤ 2 ^ 24

end

instance (s : Sender) (a : SendAct) : Decidable (NumbersLeft s a) := Nat.decLe _ _

variable {cfg : Config} {s s' : Sender} {n n' : Net}

structure Numbered (s : Sender) : Prop where
  index_pos : s.net.ivUpdate = true → 0 < s.net.ivIndex.toNat
  le : ∀ p ∈ s.taken, p.1.toNat ≤ s.net.iviTx.toNat
  mem_iff : ∀ seq, (s.net.iviTx, seq) ∈ s.taken ↔
    ∃ k, 1 ≤ k ∧ k ≤ used s ∧ seq = s.net.seq - BitVec.ofNat 24 k
  used_le : used s ≤ 2 ^ 24
  subset : s.encrypted ⊆ s.taken
  nodup : s.encrypted.Nodup

theorem iviTx_toNat (h : n.ivUpdate = true → 0 < n.ivIndex.toNat) :
    n.iviTx.toNat = n.ivIndex.toNat - n.ivUpdate.toNat := by
  unfold Net.iviTx
  cases hu : n.ivUpdate with
  | false => simp
  | true =>
    have hpos := h hu
    have hone : (1 : BitVec 32).toNat = 1 := rfl
    rw [if_pos rfl, BitVec.toNat_sub, Bool.toNat_true]
    omega

theorem Numbered.fresh_iff (h : Numbered s) :
    (s.net.iviTx, s.net.seq) ∉ s.taken ↔ used s < 2 ^ 24 := by
  rw [h.mem_iff]
  constructor
  · intro hnot
    by_contra hge
    refine hnot ⟨2 ^ 24, by omega, by omega, ?_⟩
    simp
  · rintro hlt ⟨k, hk1, hk2, heq⟩
    have hzero : BitVec.ofNat 24 k = 0 := by
      rw [eq_comm, BitVec.sub_eq_iff_eq_add] at heq
      simpa using heq
    have := congrArg BitVec.toNat hzero
    simp at this
    omega

theorem next_sub (k : Nat) (x : Seq) : x + 1 - BitVec.ofNat 24 (k + 1) = x - BitVec.ofNat 24 k := by
  rw [BitVec.ofNat_add, BitVec.sub_eq_iff_eq_add, ← BitVec.add_assoc, BitVec.sub_add_cancel]
  rfl

theorem Numbered.numberPdu (h : Numbered s) (hleft : used s + 1 ≤ 2 ^ 24) (encrypts : Bool) :
    Numbered (numberPdu s encrypts) ∧ used (numberPdu s encrypts) = used s + 1 := by
  have hused : used (Mesh.numberPdu s encrypts) = used s + 1 := by
    unfold used Mesh.numberPdu
    rw [countP_append]
    simp [Net.iviTx]
  have hfresh := h.fresh_iff.mpr (by omega)
  refine ⟨⟨h.index_pos, ?_, fun seq => ?_, by omega, ?_, ?_⟩, hused⟩
  · intro p hp
    rcases mem_append.mp hp with hp | hp
    · exact h.le p hp
    · rw [mem_singleton.mp hp]
      exact Nat.le_refl _
  · rw [hused]
    show (s.net.iviTx, seq) ∈ s.taken ++ [(s.net.iviTx, s.net.seq)] ↔
      ∃ k, 1 ≤ k ∧ k ≤ used s + 1 ∧ seq = s.net.seq + 1 - BitVec.ofNat 24 k
    rw [mem_append, mem_singleton, h.mem_iff]
    constructor
    · rintro (⟨k, hk1, hk2, rfl⟩ | heq)
      · exact ⟨k + 1, by omega, by omega, (next_sub k s.net.seq).symm⟩
      · exact ⟨1, Nat.le_refl _, by omega, by simp [(Prod.mk.inj heq).2, BitVec.add_sub_cancel]⟩
    · rintro ⟨k, hk1, hk2, rfl⟩
      obtain ⟨k, rfl⟩ := Nat.exists_eq_add_of_le' hk1
      rw [next_sub]
      rcases Nat.eq_zero_or_pos k with rfl | hpos
      · exact .inr (by simp)
      · exact .inl ⟨k, hpos, by omega, rfl⟩
  · intro p hp
    show p ∈ s.taken ++ [(s.net.iviTx, s.net.seq)]
    unfold Mesh.numberPdu at hp
    split at hp
    · rcases mem_append.mp hp with hp | hp
      · exact mem_append_left _ (h.subset hp)
      · exact mem_append_right _ hp
    · exact mem_append_left _ (h.subset hp)
  · unfold Mesh.numberPdu
    dsimp only
    split
    · refine nodup_append.mpr ⟨h.nodup, by simp, fun p hp q hq heq => ?_⟩
      exact hfresh (h.subset (heq.trans (mem_singleton.mp hq) ▸ hp))
    · exact h.nodup

theorem IvChange.iviTx (h : IvChange n n') (hpos : n.ivUpdate = true → 0 < n.ivIndex.toNat) :
    (n'.ivUpdate = true → 0 < n'.ivIndex.toNat) ∧
      (n'.iviTx = n.iviTx ∧ n'.seq = n.seq ∨ n.iviTx.toNat < n'.iviTx.toNat) := by
  have hn := iviTx_toNat hpos
  cases h with
  | none hindex hseq hupdate =>
    refine ⟨by rwa [hindex, hupdate], .inl ⟨?_, hseq⟩⟩
    rw [Net.iviTx, Net.iviTx, hindex, hupdate]
  | enter hnormal hindex hseq hupdate =>
    have hpos' : n'.ivUpdate = true → 0 < n'.ivIndex.toNat := fun _ => by omega
    refine ⟨hpos', .inl ⟨BitVec.eq_of_toNat_eq ?_, hseq⟩⟩
    rw [iviTx_toNat hpos', hn, hnormal, hupdate, hindex]
    rfl
  | leave hold hindex hseq hupdate =>
    have hpos' : n'.ivUpdate = true → 0 < n'.ivIndex.toNat := by simp [hupdate]
    refine ⟨hpos', .inr ?_⟩
    rw [iviTx_toNat hpos', hn, hold, hupdate, hindex, Bool.toNat_true, Bool.toNat_false]
    have := hpos hold
    omega
  | recover hnormal hindex =>
    have hpos' : n'.ivUpdate = true → 0 < n'.ivIndex.toNat := fun _ => by omega
    refine ⟨hpos', .inr ?_⟩
    rw [iviTx_toNat hpos', hn, hnormal]
    have := Bool.toNat_le n'.ivUpdate
    omega

theorem Numbered.ivChange (h : Numbered s) (hc : IvChange s.net n') :
    Numbered { s with net := n' } := by
  obtain ⟨hpos, hcases⟩ := hc.iviTx h.index_pos
  rcases hcases with ⟨htx, hseq⟩ | hlt
  · have hused : used { s with net := n' } = used s := by simp only [used, htx]
    refine ⟨hpos, ?_, fun seq => ?_, hused ▸ h.used_le, h.subset, h.nodup⟩
    · show ∀ p ∈ s.taken, p.1.toNat ≤ n'.iviTx.toNat
      rw [htx]
      exact h.le
    · show (n'.iviTx, seq) ∈ s.taken ↔ ∃ k, 1 ≤ k ∧ k ≤ _ ∧ seq = n'.seq - BitVec.ofNat 24 k
      rw [htx, hseq, hused]
      exact h.mem_iff seq
  · have hnot : ∀ p ∈ s.taken, p.1 ≠ n'.iviTx := by
      intro p hp heq
      have := h.le p hp
      rw [heq] at this
      omega
    have hused : used { s with net := n' } = 0 :=
      countP_eq_zero.mpr fun p hp => by simpa using hnot p hp
    refine ⟨hpos, fun p hp => ?_, fun seq => ?_, by omega, h.subset, h.nodup⟩
    · exact Nat.le_of_lt (Nat.lt_of_le_of_lt (h.le p hp) hlt)
    · refine iff_of_false (fun hmem => hnot _ hmem rfl) ?_
      rintro ⟨k, hk1, hk2, -⟩
      omega

theorem numbered_step {a : SendAct} (h : Numbered s) (hleft : NumbersLeft s a)
    (hstep : sendStep cfg s a = some s') : Numbered s' := by
  cases a with
  | netSend room =>
    cases hstep
    cases room with
    | false => exact h
    | true => exact (h.numberPdu hleft true).1
  | netResend opens encrypts now txInProgress =>
    cases hstep
    cases opens with
    | false => exact h
    | true =>
      have hn := (h.numberPdu hleft true).1
      unfold btMeshNetResend
      dsimp only
      split
      · exact h
      · split
        · exact hn.ivChange (ivChange_ivUpdate ..)
        · exact hn
  | friendCtl cred => exact Option.some.inj hstep ▸ (h.numberPdu hleft cred).1
  | friendTx cred update =>
    cases hstep
    unfold friendLpnEnqueueTx
    split
    · obtain ⟨hn, hused⟩ := h.numberPdu (Nat.le_of_succ_le hleft) true
      refine (hn.numberPdu ?_ _).1
      rw [hused]
      exact hleft
    · have hone : 1 ≤ (SendAct.friendTx cred update).numbers := by
        cases cred <;> cases update <;> simp [SendAct.numbers]
      exact (h.numberPdu (Nat.le_trans (Nat.add_le_add_left hone _) hleft) cred).1
  | ivUpdate ivIndex ivUpdate now txInProgress =>
    exact Option.some.inj hstep ▸ h.ivChange (ivChange_ivUpdate ..)

/-- In every run that takes no more numbers under an IV index than there are, no two PDUs are
encrypted with the same pair; and the next number is one that has not been taken exactly if there is
one left. -/
theorem nonces_nodup {start : Sender} (hstart : start.taken = [] ∧ start.encrypted = [])
    (hpos : start.net.ivUpdate = true → 0 < start.net.ivIndex.toNat)
    (hrun : GuardedRun (sendStep cfg) NumbersLeft start s) :
    s.encrypted.Nodup ∧ ((s.net.iviTx, s.net.seq) ∉ s.taken ↔ used s < 2 ^ 24) := by
  have hused : used start = 0 := by simp [used, hstart.1]
  have hn : Numbered start := by
    refine ⟨hpos, by simp [hstart.1], fun seq => ?_, by omega, by simp [hstart.2],
      by simp [hstart.2]⟩
    rw [hstart.1]
    refine iff_of_false (by simp) ?_
    rintro ⟨k, hk1, hk2, -⟩
    omega
  have h : Numbered s := hrun.invariant (fun _ _ _ => numbered_step) hn
  exact ⟨h.nodup, h.fresh_iff⟩

def newNode : Sender where
  net := ⟨0, 0, false, false, false, 0, []⟩
  taken := []
  encrypted := []

theorem nonces_nodup_newNode : ∃ s, GuardedRun (sendStep ⟨true⟩) NumbersLeft newNode s ∧
    s.encrypted = [(0, 0), (0, 1), (0, 2), (0, 3), (1, 0)] ∧ s.encrypted.Nodup ∧
      ((s.net.iviTx, s.net.seq) ∉ s.taken ↔ used s < 2 ^ 24) := by
  have hrun : GuardedRun (sendStep ⟨true⟩) NumbersLeft newNode _ :=
    .of_foldlM _ _ [.netSend true, .friendTx true (some true), .ivUpdate 1 true 400000000 false,
      .netResend true true 400000001 false, .ivUpdate 1 false 800000000 false, .netSend true] rfl
  exact ⟨_, hrun, rfl, nonces_nodup ⟨rfl, rfl⟩ (by decide) hrun⟩

theorem sends_encrypted (cfg : Config) (s : Sender) (k : Nat) :
    ∃ s', GuardedRun (sendStep cfg) (fun _ _ => True) s s' ∧ s'.net.iviTx = s.net.iviTx ∧
      s'.net.seq = s.net.seq + BitVec.ofNat 24 k ∧
      s'.encrypted = s.encrypted ++
        (range k).map fun i => (s.net.iviTx, s.net.seq + BitVec.ofNat 24 i) := by
  induction k with
  | zero => exact ⟨s, .refl, rfl, by simp, by simp⟩
  | succ k ih =>
    obtain ⟨t, hrun, htx, hseq, henc⟩ := ih
    refine ⟨numberPdu t true, hrun.tail ⟨.netSend true, trivial, rfl⟩, htx, ?_, ?_⟩
    · show t.net.seq + 1 = _
      rw [hseq, BitVec.add_assoc, BitVec.ofNat_add]
      rfl
    · show t.encrypted ++ [(t.net.iviTx, t.net.seq)] = _
      rw [henc, htx, hseq, range_succ, map_append, append_assoc]
      rfl

theorem number_taken_twice :
    ∃ s, GuardedRun (sendStep ⟨false⟩) (fun _ _ => True) newNode s ∧ ¬ s.encrypted.Nodup := by
  obtain ⟨s, hrun, -, -, henc⟩ := sends_encrypted ⟨false⟩ newNode (2 ^ 24 + 1)
  refine ⟨s, hrun, fun hnodup => ?_⟩
  have hmap := henc ▸ hnodup
  rw [newNode, nil_append] at hmap
  have hinj := inj_on_of_nodup_map hmap (mem_range.mpr (Nat.succ_pos _))
    (mem_range.mpr (Nat.lt_succ_self _)) (by simp)
  simp at hinj

/-- A friendship of `bt_mesh.frnd`; `cred` says that PDUs can be encrypted for it. -/
structure Friend where
  established : Bool
  netIdx : BitVec 16
  lpn : Addr
  subList : List Addr
  secUpdate : Bool
  cred : Bool

inductive Way where
  | friendQueue (lpn : Addr)
  | adv
  | gatt
  deriving DecidableEq

structure Copy where
  way : Way
  seq : Seq
  deriving DecidableEq

structure SendNode where
  sender : Sender
  friends : List Friend
  friends_length : friends.length ≤ 1000
  friendEnabled : Bool
  gattProxy : Bool
  /-- The addresses that a proxy client listens to. -/
  proxyRelay : Addr → Bool
  /-- `bt_mesh_fixed_group_match` or `bt_mesh_elem_find`. -/
  localMatch : Addr → Bool
  defaultTtl : BitVec 8

/-- An access message: `keyFound` says that there is a key for its application index. -/
structure Tx where
  netIdx : BitVec 16
  addr : Addr
  sendTtl : BitVec 8
  sendRel : Bool
  keyFound : Bool
  len : Nat
  tailroom : Nat

/-- Whether there is a buffer for the message and one for relaying it, and whether the node's own
transport layer takes the message. -/
structure Env where
  advBuf : Bool
  relayBuf : Bool
  taken : Bool

section

variable (addr : Addr)

def isUnicast : Bool := decide (addr ≠ 0) && decide (addr < 0x8000)

def isRfu : Bool := decide (0xff00 ≤ addr) && decide (addr ≤ 0xfffb)

def decodes : Bool := decide (addr ≠ 0) && !isRfu addr

def friendLpnMatches (f : Friend) (netIdx : BitVec 16) (addr : Addr) : Bool :=
  if !f.established then false
  else if netIdx ≠ f.netIdx then false
  else if isUnicast addr then decide (addr = f.lpn)
  else f.subList.contains addr

variable (n : SendNode) (env : Env) (tx : Tx)

def Tx.reaches (f : Friend) : Bool := friendLpnMatches f tx.netIdx tx.addr

def enqueueTx (s : Sender) (f : Friend) : Sender × Friend × List Copy :=
  (friendLpnEnqueueTx s f.cred (if f.secUpdate then some f.cred else none),
    { f with secUpdate := f.secUpdate && !f.cred },
    if f.cred then [⟨.friendQueue f.lpn, s.net.seq⟩] else [])

def enqueueEach (tx : Tx) : Sender → List Friend → Sender × List Friend × List Copy
  | s, [] => (s, [], [])
  | s, f :: fs =>
    if tx.reaches f then
      let out := enqueueTx s f
      let rest := enqueueEach tx out.1 fs
      (rest.1, out.2.1 :: rest.2.1, out.2.2 ++ rest.2.2)
    else
      let rest := enqueueEach tx s fs
      (rest.1, f :: rest.2.1, rest.2.2)

def btMeshFriendMatch : Bool :=
  n.friends.any tx.reaches

def btMeshFriendEnqueueTx : Bool × Sender × List Friend × List Copy :=
  if !btMeshFriendMatch n tx || !n.friendEnabled then (false, n.sender, n.friends, [])
  else (true, enqueueEach tx n.sender n.friends)

variable (seq : Seq)

/-- `bt_mesh_friend_enqueue_rx` for a PDU that came through the local interface: the copies keep its
number. -/
def btMeshFriendEnqueueRx : List Copy :=
  if n.friendEnabled then
    (n.friends.filter fun f => tx.reaches f && f.cred).map
      fun f => ⟨.friendQueue f.lpn, seq⟩
  else []

def proxyCopies : List Copy :=
  if n.gattProxy && n.proxyRelay tx.addr then [⟨.gatt, seq⟩] else []

def btMeshNetLocal (ttl : BitVec 8) (seq : Seq) : List Copy :=
  if !decodes tx.addr then []
  else
    (if env.taken then btMeshFriendEnqueueRx n tx seq else []) ++
      if !isUnicast tx.addr && decide (ttl ≠ 1#8) && env.relayBuf then
        proxyCopies n tx seq ++ [⟨.adv, seq⟩]
      else []

def sendTtl : BitVec 8 :=
  if tx.sendTtl = 0xff then n.defaultTtl else tx.sendTtl

def proxied : List Copy :=
  if sendTtl n tx ≠ 1#8 then proxyCopies n tx seq else []

def bearerCopies : List Copy :=
  if !(proxied n tx seq).isEmpty && isUnicast tx.addr then proxied n tx seq
  else
    proxied n tx seq ++
      if n.localMatch tx.addr then btMeshNetLocal n env tx (sendTtl n tx) seq
      else if sendTtl n tx ≠ 1#8 then [⟨.adv, seq⟩]
      else []

/-- What `bt_mesh_trans_send` has done: `appSeq` is the number in the nonce of the payload. -/
inductive TransSent where
  | failed
  | segmented (appSeq : Seq)
  | unsegmented (appSeq : Seq) (sender : Sender) (friends : List Friend) (copies : List Copy)

/-- `send_unseg`. A message of at most 11 octets leaves room for both MICs in the buffer. -/
def sendUnseg (appSeq : Seq) : TransSent :=
  if !env.advBuf then .failed
  else
    match btMeshFriendEnqueueTx n tx with
    | (matched, s, friends, copies) =>
      if matched && isUnicast tx.addr then .unsegmented appSeq s friends copies
      else
        .unsegmented appSeq (btMeshNetEncode s true) friends
          (copies ++ bearerCopies n env tx s.net.seq)

def btMeshTransSend : TransSent :=
  if tx.tailroom < 4 then .failed
  else if !tx.keyFound then .failed
  else if tx.sendRel || decide (11 < tx.len) then .segmented n.sender.net.seq
  else sendUnseg n env tx n.sender.net.seq

def matching : List Friend :=
  if n.friendEnabled then n.friends.filter tx.reaches else []

def GroupLeaves : Prop :=
  if n.localMatch tx.addr then
    (sendTtl n tx ≠ 1#8 ∧ n.gattProxy ∧ n.proxyRelay tx.addr) ∨ (decodes tx.addr ∧
        (sendTtl n tx ≠ 1#8 ∧ env.relayBuf ∨ env.taken ∧ ∃ f ∈ matching n tx, f.cred))
  else sendTtl n tx ≠ 1#8

def FirstOnly : Prop :=
  (∀ f ∈ (matching n tx).tail, ¬ f.cred) ∧
    (matching n tx = [] ∨ isUnicast tx.addr ∨ ¬ GroupLeaves n env tx)

end

variable {n : SendNode} {env : Env} {tx : Tx} {s : Sender}

theorem seq_friendLpnEnqueueTx (s : Sender) (cred : Bool) (update : Option Bool) :
    ∃ j, 1 ≤ j ∧ j ≤ 2 ∧
      (friendLpnEnqueueTx s cred update).net.seq = s.net.seq + BitVec.ofNat 24 j := by
  unfold friendLpnEnqueueTx
  split
  · refine ⟨2, by omega, by omega, ?_⟩
    show s.net.seq + 1 + 1 = _
    rw [BitVec.add_assoc]
    rfl
  · exact ⟨1, by omega, by omega, rfl⟩

theorem add_ofNat_ne (x : Seq) {k : Nat} (hpos : 0 < k) (hlt : k < 2 ^ 24) :
    x + BitVec.ofNat 24 k ≠ x := by
  intro h
  have hzero : BitVec.ofNat 24 k = 0 := by simpa using h
  have := congrArg BitVec.toNat hzero
  simp at this
  omega

theorem seq_enqueueEach (tx : Tx) (fs : List Friend) (s : Sender) :
    ∃ k, fs.countP tx.reaches ≤ k ∧ k ≤ 2 * fs.length ∧
      (enqueueEach tx s fs).1.net.seq = s.net.seq + BitVec.ofNat 24 k := by
  induction fs generalizing s with
  | nil => exact ⟨0, by simp, by simp, by simp [enqueueEach]⟩
  | cons f fs ih =>
    by_cases hm : tx.reaches f
    · obtain ⟨j, hj1, hj2, hj⟩ :=
        seq_friendLpnEnqueueTx s f.cred (if f.secUpdate then some f.cred else none)
      obtain ⟨k, hk1, hk2, hk⟩ := ih (enqueueTx s f).1
      refine ⟨j + k, ?_, ?_, ?_⟩
      · rw [countP_cons_of_pos hm]
        omega
      · rw [length_cons]
        omega
      · rw [enqueueEach, if_pos hm]
        show (enqueueEach tx (enqueueTx s f).1 fs).1.net.seq = _
        rw [hk, BitVec.ofNat_add, ← BitVec.add_assoc, ← hj]
        rfl
    · obtain ⟨k, hk1, hk2, hk⟩ := ih s
      refine ⟨k, ?_, ?_, ?_⟩
      · rwa [countP_cons_of_neg hm]
      · rw [length_cons]
        omega
      · rwa [enqueueEach, if_neg hm]

variable {fs : List Friend}

theorem enqueueEach_late_iff {appSeq : Seq} {k : Nat} (hpos : 0 < k)
    (hlt : k + 2 * fs.length < 2 ^ 24) (hs : s.net.seq = appSeq + BitVec.ofNat 24 k) :
    (∀ c ∈ (enqueueEach tx s fs).2.2, c.seq = appSeq) ↔ ∀ f ∈ fs.filter tx.reaches, ¬ f.cred := by
  induction fs generalizing s k with
  | nil => simp [enqueueEach]
  | cons f fs ih =>
    rw [length_cons] at hlt
    by_cases hm : tx.reaches f
    · obtain ⟨j, hj1, hj2, hj⟩ :=
        seq_friendLpnEnqueueTx s f.cred (if f.secUpdate then some f.cred else none)
      have hnext : (enqueueTx s f).1.net.seq = appSeq + BitVec.ofNat 24 (k + j) := by
        rw [BitVec.ofNat_add, ← BitVec.add_assoc, ← hs]
        exact hj
      have hrest := ih (by omega) (by omega) hnext
      have hne : s.net.seq ≠ appSeq := hs ▸ add_ofNat_ne appSeq hpos (by omega)
      rw [enqueueEach, if_pos hm, filter_cons_of_pos hm, forall_mem_cons, ← hrest]
      show (∀ c ∈ (enqueueTx s f).2.2 ++ _, c.seq = appSeq) ↔ _
      rw [forall_mem_append]
      refine and_congr_left fun _ => ?_
      cases hcred : f.cred <;> simp [enqueueTx, hcred, hne]
    · rw [enqueueEach, if_neg hm, filter_cons_of_neg hm]
      exact ih hpos (by omega) hs

theorem enqueueEach_iff (hlen : fs.length ≤ 1000) :
    (∀ c ∈ (enqueueEach tx s fs).2.2, c.seq = s.net.seq) ↔
      ∀ f ∈ (fs.filter tx.reaches).tail, ¬ f.cred := by
  induction fs with
  | nil => simp [enqueueEach]
  | cons f fs ih =>
    rw [length_cons] at hlen
    by_cases hm : tx.reaches f
    · obtain ⟨j, hj1, hj2, hj⟩ :=
        seq_friendLpnEnqueueTx s f.cred (if f.secUpdate then some f.cred else none)
      rw [enqueueEach, if_pos hm, filter_cons_of_pos hm, tail_cons]
      show (∀ c ∈ (enqueueTx s f).2.2 ++ _, c.seq = s.net.seq) ↔ _
      rw [forall_mem_append, ← enqueueEach_late_iff (by omega) (by omega) hj]
      refine and_iff_right fun c hc => ?_
      cases hcred : f.cred <;> simp [enqueueTx, hcred] at hc
      rw [hc]
    · rw [enqueueEach, if_neg hm, filter_cons_of_neg hm]
      exact ih (by omega)

variable {seq : Seq} {ttl : BitVec 8}

theorem proxyCopies_seq : ∀ c ∈ proxyCopies n tx seq, c.seq = seq := by
  intro c hc
  unfold proxyCopies at hc
  split at hc <;> simp at hc
  rw [hc]

theorem btMeshFriendEnqueueRx_seq : ∀ c ∈ btMeshFriendEnqueueRx n tx seq, c.seq = seq := by
  intro c hc
  unfold btMeshFriendEnqueueRx at hc
  split at hc
  · obtain ⟨f, -, rfl⟩ := mem_map.mp hc
    rfl
  · cases hc

theorem btMeshNetLocal_seq : ∀ c ∈ btMeshNetLocal n env tx ttl seq, c.seq = seq := by
  intro c hc
  unfold btMeshNetLocal at hc
  split at hc
  · cases hc
  rcases mem_append.mp hc with hc | hc
  · split at hc
    · exact btMeshFriendEnqueueRx_seq c hc
    · cases hc
  · split at hc
    · rcases mem_append.mp hc with hc | hc
      · exact proxyCopies_seq c hc
      · rw [mem_singleton.mp hc]
    · cases hc

theorem proxied_seq : ∀ c ∈ proxied n tx seq, c.seq = seq := by
  intro c hc
  unfold proxied at hc
  split at hc
  · exact proxyCopies_seq c hc
  · cases hc

theorem bearerCopies_seq : ∀ c ∈ bearerCopies n env tx seq, c.seq = seq := by
  intro c hc
  unfold bearerCopies at hc
  split at hc
  · exact proxied_seq c hc
  rcases mem_append.mp hc with hc | hc
  · exact proxied_seq c hc
  · split at hc
    · exact btMeshNetLocal_seq c hc
    split at hc
    · rw [mem_singleton.mp hc]
    · cases hc

theorem btMeshFriendEnqueueRx_eq_nil :
    btMeshFriendEnqueueRx n tx seq = [] ↔ ¬ ∃ f ∈ matching n tx, f.cred := by
  unfold btMeshFriendEnqueueRx matching
  split
  · simp
  · simp

theorem btMeshNetLocal_eq_nil (hgroup : ¬ isUnicast tx.addr) :
    btMeshNetLocal n env tx ttl seq = [] ↔ ¬ (decodes tx.addr ∧
        (ttl ≠ 1#8 ∧ env.relayBuf ∨ env.taken ∧ ∃ f ∈ matching n tx, f.cred)) := by
  unfold btMeshNetLocal
  by_cases hdecodes : decodes tx.addr
  case neg => simp [hdecodes]
  have hqueues : (if env.taken then btMeshFriendEnqueueRx n tx seq else []) = [] ↔
      ¬ (env.taken ∧ ∃ f ∈ matching n tx, f.cred) := by
    by_cases htaken : env.taken
    · rw [if_pos htaken, btMeshFriendEnqueueRx_eq_nil, and_iff_right htaken]
    · simp [htaken]
  rw [if_neg (by simp [hdecodes]), append_eq_nil_iff, hqueues, and_iff_right hdecodes]
  by_cases hrelay : ttl ≠ 1#8 ∧ env.relayBuf
  · simp [hrelay, hgroup]
  · rw [if_neg (by simpa [hgroup] using hrelay)]
    simp [hrelay]

theorem bearerCopies_eq_nil (hgroup : ¬ isUnicast tx.addr) :
    bearerCopies n env tx seq = [] ↔ ¬ GroupLeaves n env tx := by
  unfold bearerCopies GroupLeaves
  have hproxied : proxied n tx seq = [] ↔
      ¬ (sendTtl n tx ≠ 1#8 ∧ n.gattProxy ∧ n.proxyRelay tx.addr) := by
    unfold proxied proxyCopies
    by_cases httl : sendTtl n tx = 1#8 <;> simp
  rw [if_neg (by simp [hgroup]), append_eq_nil_iff, hproxied]
  by_cases hlocal : n.localMatch tx.addr
  · rw [if_pos hlocal, if_pos hlocal, btMeshNetLocal_eq_nil hgroup, not_or]
  · rw [if_neg hlocal, if_neg hlocal]
    by_cases httl : sendTtl n tx = 1#8
    · simp [httl]
    · simp [httl]

/-- The copies of an unsegmented message all carry the number that its payload was encrypted with
exactly if no copy that takes a later number leaves the node. -/
theorem copies_appSeq_iff {appSeq : Seq} {copies : List Copy}
    (h : btMeshTransSend n env tx = .unsegmented appSeq s fs copies) :
    (∀ c ∈ copies, c.seq = appSeq) ↔ FirstOnly n env tx := by
  unfold btMeshTransSend at h
  split at h
  · cases h
  split at h
  · cases h
  split at h
  · cases h
  unfold sendUnseg at h
  split at h
  · cases h
  unfold btMeshFriendEnqueueTx at h
  unfold FirstOnly
  by_cases hnone : !btMeshFriendMatch n tx || !n.friendEnabled
  · have hmatch : matching n tx = [] := by
      unfold matching
      split
      · next henabled =>
        simpa [btMeshFriendMatch, henabled] using hnone
      · rfl
    rw [if_pos hnone] at h
    obtain ⟨rfl, -, -, rfl⟩ := TransSent.unsegmented.inj h
    simpa [hmatch] using bearerCopies_seq
  · obtain ⟨hany, henabled⟩ : btMeshFriendMatch n tx ∧ n.friendEnabled := by simpa using hnone
    have hmatch : matching n tx = n.friends.filter tx.reaches := if_pos henabled
    have hcount : 0 < n.friends.countP tx.reaches :=
      countP_pos_iff.mpr (by simpa [btMeshFriendMatch] using hany)
    have hsome : matching n tx ≠ [] := by
      rw [hmatch, ← length_pos_iff, ← countP_eq_length_filter]
      exact hcount
    rw [if_neg hnone] at h
    have hqueues := @enqueueEach_iff tx n.sender n.friends n.friends_length
    by_cases hunicast : isUnicast tx.addr
    · dsimp only at h
      rw [Bool.true_and, if_pos hunicast] at h
      obtain ⟨rfl, -, -, rfl⟩ := TransSent.unsegmented.inj h
      rw [hqueues, hmatch]
      simp [hunicast]
    · dsimp only at h
      rw [Bool.true_and, if_neg hunicast] at h
      obtain ⟨rfl, -, -, rfl⟩ := TransSent.unsegmented.inj h
      obtain ⟨k, hk1, hk2, hk⟩ := seq_enqueueEach tx n.friends n.sender
      have hlen := n.friends_length
      have hne := @add_ofNat_ne n.sender.net.seq k (by omega) (by omega)
      have hbearer : (∀ c ∈ bearerCopies n env tx (enqueueEach tx n.sender n.friends).1.net.seq,
          c.seq = n.sender.net.seq) ↔ ¬ GroupLeaves n env tx := by
        rw [← bearerCopies_eq_nil hunicast, eq_nil_iff_forall_not_mem]
        refine forall_congr' fun c => ⟨fun hc hmem => hne ?_, fun hc hmem => absurd hmem hc⟩
        rw [← hk, ← bearerCopies_seq c hmem]
        exact hc hmem
      rw [forall_mem_append, hqueues, hbearer, hmatch]
      simp [hunicast, hmatch ▸ hsome]

def oneFriend : SendNode where
  sender := newNode
  friends := [⟨true, 0, 0x0100, [0xc000], false, true⟩]
  friends_length := by decide
  friendEnabled := true
  gattProxy := false
  proxyRelay _ := false
  localMatch _ := false
  defaultTtl := 7

def shortMessage (addr : Addr) : Tx where
  netIdx := 0
  addr := addr
  sendTtl := 0xff
  sendRel := false
  keyFound := true
  len := 8
  tailroom := 4

theorem copies_appSeq_iff_unicast :
    ∃ s fs copies, btMeshTransSend oneFriend ⟨true, true, true⟩ (shortMessage 0x0100) =
        .unsegmented 0 s fs copies ∧ copies = [⟨.friendQueue 0x0100, 0⟩] ∧
      ((∀ c ∈ copies, c.seq = 0) ↔ FirstOnly oneFriend ⟨true, true, true⟩ (shortMessage 0x0100)) :=
  ⟨_, _, _, rfl, rfl, copies_appSeq_iff rfl⟩

theorem group_copy_differs :
    ∃ s fs copies, btMeshTransSend oneFriend ⟨true, true, true⟩ (shortMessage 0xc000) =
        .unsegmented 0 s fs copies ∧ copies = [⟨.friendQueue 0x0100, 0⟩, ⟨.adv, 1⟩] ∧
      ¬ ∀ c ∈ copies, c.seq = 0 :=
  ⟨_, _, _, rfl, rfl, by decide⟩

end Zephyr.Mesh
