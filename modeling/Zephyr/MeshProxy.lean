import Mathlib

/-! The segments of `mesh/proxy.c`. A message that fills its last PDU ends in a continuation, after
which the receiver still waits for the last segment. -/

namespace Zephyr.MeshProxy

open List

abbrev Byte := BitVec 8

def eInval : Int := 22

def clientBufSize : Nat := 68

def proxyProv : Byte := 3

def pduHdr (sar : BitVec 2) (type : Byte) : Byte := sar.setWidth 8 <<< 6 ||| type &&& 0x3f

def pduType (hdr : Byte) : Byte := hdr &&& 0x3f

def pduSar (hdr : Byte) : BitVec 2 := (hdr >>> 6).setWidth 2

/-- `completed` has the messages that `proxy_complete_pdu` was called with. -/
structure Client where
  msgType : Byte
  buf : List Byte
  completed : List (Byte × List Byte)
  deriving DecidableEq

def proxyCompletePdu (c : Client) : Client :=
  { c with buf := [], completed := c.completed ++ [(c.msgType, c.buf)] }

def proxyRecv (attrIsProv : Bool) (c : Client) : List Byte → Client × Int
  | [] => (c, -eInval)
  | hdr :: data =>
    let added := { c with buf := c.buf ++ data }
    if attrIsProv ≠ (pduType hdr == proxyProv) then (c, -eInval)
    else if clientBufSize - c.buf.length < data.length then (c, -eInval)
    else match pduSar hdr with
      | 0 =>
        if c.buf ≠ [] then (c, -eInval)
        else (proxyCompletePdu { added with msgType := pduType hdr }, data.length + 1)
      | 1 =>
        if c.buf ≠ [] then (c, -eInval)
        else ({ added with msgType := pduType hdr }, data.length + 1)
      | 2 =>
        if c.buf = [] ∨ c.msgType ≠ pduType hdr then (c, -eInval) else (added, data.length + 1)
      | _ =>
        if c.buf = [] ∨ c.msgType ≠ pduType hdr then (c, -eInval)
        else (proxyCompletePdu added, data.length + 1)

/-- The loop of `proxy_segment_and_send`, which ends within as many rounds as there are bytes. -/
def segmentLoop (mtu : Nat) (type : Byte) : Nat → List Byte → List (List Byte)
  | 0, _ => []
  | rounds + 1, msg =>
    if msg = [] then []
    else if msg.length + 1 < mtu then [pduHdr 3 type :: msg]
    else
      let pushed := pduHdr 2 type :: msg
      pushed.take mtu :: segmentLoop mtu type rounds (pushed.drop mtu)

/-- The PDUs passed to `proxy_send`. -/
def proxySegmentAndSend (attMtu : Nat) (type : Byte) (msg : List Byte) : List (List Byte) :=
  let mtu := attMtu - 3
  if msg.length < mtu then [pduHdr 0 type :: msg]
  else
    let pushed := pduHdr 1 type :: msg
    pushed.take mtu :: segmentLoop mtu type msg.length (pushed.drop mtu)

def recvAll (type : Byte) (c : Client) (pdus : List (List Byte)) : Client :=
  pdus.foldl (fun c pdu => (proxyRecv (type == proxyProv) c pdu).1) c

variable {type t : Byte} {msg buf : List Byte} {d : List (Byte × List Byte)} {n r : Nat}

theorem pduHdr_fields : ∀ (sar : BitVec 2) (type : Byte), type < 4 →
    pduType (pduHdr sar type) = type ∧ pduSar (pduHdr sar type) = sar := by decide +kernel

theorem recv_pdu (sar : BitVec 2) (ht : type < 4) (hty : buf ≠ [] → t = type)
    (hsar : buf = [] ↔ sar < 2) (hroom : (buf ++ msg).length ≤ clientBufSize) :
    recvAll type ⟨t, buf, d⟩ [pduHdr sar type :: msg] =
      if sar = 0 ∨ sar = 3 then ⟨type, [], d ++ [(type, buf ++ msg)]⟩
      else ⟨type, buf ++ msg, d⟩ := by
  have hhdr := pduHdr_fields sar type ht
  have hfits : msg.length ≤ clientBufSize - buf.length := by
    rw [length_append] at hroom
    omega
  obtain rfl | rfl | rfl | rfl : sar = 0 ∨ sar = 1 ∨ sar = 2 ∨ sar = 3 := by grind
  all_goals simp_all [recvAll, proxyRecv, proxyCompletePdu, Nat.not_lt_of_le]

theorem exists_append_of_le (msg : List Byte) (h : n ≤ msg.length) :
    ∃ a b, msg = a ++ b ∧ n = a.length :=
  ⟨msg.take n, msg.drop n, (take_append_drop ..).symm, (length_take_of_le h).symm⟩

theorem segmentLoop_spec (ht : type < 4) (hn : 0 < n) (hlen : msg.length ≤ r)
    (hbuf : buf ≠ []) (hroom : (buf ++ msg).length ≤ clientBufSize) :
    (∀ p ∈ segmentLoop (n + 1) type r msg, p.length ≤ n + 1) ∧
    recvAll type ⟨type, buf, d⟩ (segmentLoop (n + 1) type r msg) =
      if n ∣ msg.length then ⟨type, buf ++ msg, d⟩
      else ⟨type, [], d ++ [(type, buf ++ msg)]⟩ := by
  induction r generalizing msg buf with
  | zero => simp [eq_nil_of_length_eq_zero (Nat.le_zero.mp hlen), segmentLoop, recvAll]
  | succ r ih =>
    unfold segmentLoop
    split
    · next hnil => simp [hnil, recvAll]
    · next hnil =>
      split
      · next hlast =>
        rw [if_neg (Nat.not_dvd_of_pos_of_lt (length_pos_of_ne_nil hnil) (by omega))]
        exact ⟨by simpa using hlast.le, recv_pdu _ ht (fun _ => rfl) (by simp [hbuf]) hroom⟩
      · obtain ⟨a, b, rfl, rfl⟩ := exists_append_of_le (n := n) msg (by omega)
        rw [← append_assoc] at hroom
        rw [length_append] at hlen
        have hcont := recv_pdu (d := d) 2 ht (fun _ => rfl) (by simp [hbuf])
          (Nat.le_trans (by simp) hroom : (buf ++ a).length ≤ _)
        obtain ⟨hle, hrest⟩ := ih (by omega) (append_ne_nil_of_left_ne_nil hbuf _) hroom
        simp only [take_succ_cons, take_left, drop_succ_cons, drop_left, forall_mem_cons]
        refine ⟨⟨Nat.le_refl _, hle⟩, ?_⟩
        show recvAll type (recvAll type _ [_]) _ = _
        rw [hcont, if_neg (by decide), hrest]
        simp

/-- The round trip fails for the lengths from two full PDUs on that are multiples of a payload. -/
theorem delivers_iff {c : Client} {attMtu : Nat} (ht : type < 4) (hmtu : 23 ≤ attMtu)
    (hidle : c.buf = []) (hroom : msg.length ≤ clientBufSize) :
    ((∀ p ∈ proxySegmentAndSend attMtu type msg, p.length ≤ attMtu - 3) ∧
      recvAll type c (proxySegmentAndSend attMtu type msg) =
        { msgType := type, buf := [], completed := c.completed ++ [(type, msg)] }) ↔
    msg.length < attMtu - 3 ∨ ¬ attMtu - 4 ∣ msg.length := by
  obtain ⟨n, rfl⟩ : ∃ n, attMtu = n + 4 := ⟨attMtu - 4, by omega⟩
  obtain ⟨t, _, d⟩ := c
  cases hidle
  show (_ ∧ _) ↔ msg.length < n + 1 ∨ ¬ n ∣ msg.length
  simp only [proxySegmentAndSend, show n + 4 - 3 = n + 1 from rfl]
  split_ifs with hshort
  · rw [recv_pdu _ ht (absurd rfl) (by decide) hroom]
    simpa [hshort] using Nat.le_of_lt_succ hshort
  · obtain ⟨a, b, rfl, rfl⟩ := exists_append_of_le (n := n) msg (by omega)
    have ha : a ≠ [] := ne_nil_of_length_pos (by omega)
    obtain ⟨hle, hrun⟩ := segmentLoop_spec (d := d) (r := (a ++ b).length) ht
      (length_pos_of_ne_nil ha) (by simp) ha hroom
    simp only [take_succ_cons, take_left, drop_succ_cons, drop_left, forall_mem_cons]
    rw [and_iff_right ⟨Nat.le_refl _, hle⟩, or_iff_right hshort]
    show recvAll type (recvAll type _ [_]) _ = _ ↔ _
    rw [recv_pdu _ ht (absurd rfl) (by decide) (Nat.le_trans (by simp) hroom), if_neg (by decide),
      nil_append, hrun]
    simp [ha]

theorem roundTrip_short : recvAll 1 ⟨0, [], []⟩ (proxySegmentAndSend 23 1 (replicate 40 7)) =
    ⟨1, [], [(1, replicate 40 7)]⟩ :=
  ((@delivers_iff 1 (replicate 40 7) ⟨0, [], []⟩ 23 (by decide) (by decide) rfl
    (by decide)).mpr (by decide)).2

theorem lastSegment_missing : recvAll 1 ⟨0, [], []⟩ (proxySegmentAndSend 23 1 (replicate 38 7)) =
    ⟨1, replicate 38 7, []⟩ := by decide

end Zephyr.MeshProxy
