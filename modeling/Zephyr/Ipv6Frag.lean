import Zephyr.Pieces

/-! Sending an IPv6 packet in fragments: `net_ipv6_send_fragmented_pkt` with the buffer chains that
it copies, cuts and relinks. From the second cut on the buffer that was cut before is not counted,
so that the fragments are too long. -/

namespace Zephyr.Ipv6Frag

abbrev Byte := BitVec 8

abbrev Buf := List Byte

def eInval : Nat := 22
def ipv6Mtu : Nat := 1280
def fragHdrLen : Nat := 8
def nextHdrFrag : Byte := 44#8

/-- A packet: its chain, the length of its IPv6 header with the extension headers, and the place of
the next header field in the last of these. The fixed header is in the first buffer. -/
structure Pkt where
  frags : List Buf
  hdrLen : Nat
  nextHdrIdx : Nat
  fixed_le : 40 ≤ (frags.headD []).length
  fixed_le_hdrLen : 40 ≤ hdrLen
  dvd_hdrLen : 8 ∣ hdrLen
  hdrLen_le : hdrLen ≤ frags.flatten.length
  nextHdrIdx_lt : nextHdrIdx < hdrLen

def Pkt.payload (pkt : Pkt) : List Byte := pkt.frags.flatten.drop pkt.hdrLen

inductive Step where
  | clone
  | split
  | send (fragCount : Nat)

/-- What a step fails with, or 0; `tailroom` is the room in a new data buffer. -/
structure Env where
  errno : Step → Nat
  tailroom : Nat
  id : BitVec 32
  tailroom_pos : 0 < tailroom

/-- The loop of `net_pkt_copy`: the original chain, what is left to copy, the buffers that are full
and the one that is being filled. -/
def copyLoop (tailroom : Nat) : Nat → List Buf → Nat → List Buf → Buf → List Buf
  | 0, _, _, full, frag => full ++ [frag]
  | _ + 1, [], _, full, frag => full ++ [frag]
  | n + 1, orig :: rest, amount, full, frag =>
    if amount = 0 then full ++ [frag]
    else
      let leftLen := tailroom - frag.length
      let copyLen := if orig.length < amount then orig.length else amount
      if leftLen ≤ copyLen then
        copyLoop tailroom n (orig.drop leftLen :: rest) (amount - leftLen)
          (full ++ [frag ++ orig.take leftLen]) []
      else copyLoop tailroom n rest (amount - copyLen) full (frag ++ orig.take copyLen)

/-- `net_pkt_copy_all`; each round fills a buffer or leaves one of the chain behind. -/
def netPktCopyAll (tailroom : Nat) (frags : List Buf) : List Buf :=
  match frags with
  | [] => []
  | orig :: rest =>
    if orig.length = 0 then [[]]
    else copyLoop tailroom (frags.flatten.length + frags.length + 1) (orig :: rest)
      frags.flatten.length [] []

def netPktSplit (frag : Buf) (len : Nat) : Option Buf × Option Buf :=
  if len = 0 then (none, none)
  else if frag.length < len then (some frag, none)
  else (some (frag.take len), some (frag.drop len))

structure Fragment where
  header : List Byte
  nexthdr : Byte
  offset : BitVec 16
  id : BitVec 32
  payload : List Byte

namespace Fragment

def len (f : Fragment) : Nat := f.header.length + fragHdrLen + f.payload.length

def place (f : Fragment) : Nat := f.offset.toNat / 8 * 8

def more (f : Fragment) : Bool := f.offset.toNat % 2 = 1

end Fragment

structure Orig where
  ipv6 : List Byte
  nextHdr : Byte
  nextHdrIdx : Nat
  id : BitVec 32

def makeFragment (orig : Orig) (offset : BitVec 16) (final : Bool) (frags : List Buf) :
    Fragment :=
  let totalLen := orig.ipv6.length + fragHdrLen + frags.flatten.length - 40
  { header := ((orig.ipv6.set orig.nextHdrIdx nextHdrFrag).set 4
      (BitVec.ofNat 8 (totalLen / 256))).set 5 (BitVec.ofNat 8 (totalLen - totalLen / 256 * 256))
    nexthdr := orig.nextHdr
    offset := ((offset / 8#16) <<< 3) ||| (if final then 0#16 else 1#16)
    id := orig.id
    payload := frags.flatten }

/-- `send_ipv6_fragment` with its buffers at hand. The packet's chain is `before`, which ends in
`prev`, then `frag` and `after`: what is sent, and the chain that is left. -/
def sendIpv6Fragment (orig : Orig) (before : List Buf) (frag : Buf) (after : List Buf)
    (offset : BitVec 16) (len : Nat) (final : Bool) : Fragment × List Buf :=
  let cut := if 0 < len then netPktSplit frag len else (none, none)
  (makeFragment orig offset final (before ++ cut.1.toList),
    match cut.2 with
    | some rest => rest :: after
    | none => [])

inductive Outcome where
  | returned (status : Int) (sent : List Fragment)
  | fault (sent : List Fragment)

def Outcome.sent : Outcome → List Fragment
  | .returned _ sent => sent
  | .fault sent => sent

def room (ipv6Len : Nat) : Nat := (2 ^ 32 + (ipv6Mtu - fragHdrLen) - ipv6Len) % 2 ^ 32

def fragLoop (env : Env) (orig : Orig) : List Buf → List Buf → Nat → BitVec 16 → Nat →
    List Fragment → Outcome
  | [], before, _, offset, fragCount, sent =>
    if env.errno (.send fragCount) ≠ 0 then .returned (-env.errno (.send fragCount)) sent
    else .returned 0 (sent ++ [(sendIpv6Fragment orig before [] [] offset 0 true).1])
  | frag :: after, before, len, offset, fragCount, sent =>
    let currLen := len + frag.length
    if room orig.ipv6.length < currLen then
      let fitLen := room orig.ipv6.length - (currLen - frag.length)
      if env.errno (.send fragCount) ≠ 0 then .returned (-env.errno (.send fragCount)) sent
      else
        let s := sendIpv6Fragment orig before frag after offset fitLen false
        let sent := sent ++ [s.1]
        match s.2 with
        | [] => .fault sent
        | rest :: _ =>
          fragLoop env orig after [rest] 0
            (offset + BitVec.ofNat 16 (currLen - (frag.length - fitLen))) (fragCount + 1) sent
    else fragLoop env orig after (before ++ [frag]) currLen offset fragCount sent

def netIpv6SendFragmentedPkt (env : Env) (pkt : Pkt) : Outcome :=
  if env.errno .clone ≠ 0 then .returned (-env.errno .clone) []
  else
    match netPktCopyAll env.tailroom pkt.frags with
    | [] => .fault []
    | frag :: after =>
      if frag.length < pkt.nextHdrIdx ∨ frag.length < pkt.hdrLen then .returned (-eInval) []
      else if env.errno .split ≠ 0 then .returned (-env.errno .split) []
      else
        match netPktSplit frag pkt.hdrLen with
        | (some ipv6, some rest) =>
          fragLoop env ⟨ipv6, frag.getD pkt.nextHdrIdx 0#8, pkt.nextHdrIdx, env.id⟩ (rest :: after)
            [] 0 0#16 0 []
        | _ => .fault []

open List

variable {env : Env} {orig : Orig} {bufs before after : List Buf} {frag : Buf} {len fragCount : Nat}
  {offset : BitVec 16} {sent : List Fragment} {pkt : Pkt}

structure Fragmented (payload : List Byte) (sent : List Fragment) : Prop where
  fits : ∀ f ∈ sent, f.len ≤ ipv6Mtu
  tiles : Assembles (sent.map fun f => (f.place, f.payload)) payload
  more : ∀ f ∈ sent.dropLast, 8 ∣ f.payload.length ∧ f.more = true
  final : ∃ f, sent.getLast? = some f ∧ f.more = false

/-- Buffers of `tailroom` bytes, and a last one that has room. -/
structure Copied (tailroom : Nat) (bytes : List Byte) (bufs : List Buf) : Prop where
  split : ∃ full last, bufs = full ++ [last] ∧ (∀ b ∈ full, b.length = tailroom) ∧
    last.length < tailroom
  flatten : bufs.flatten = bytes

theorem copied_copyLoop (tailroom : Nat) : ∀ (fuel : Nat) (chain full : List Buf) (frag : Buf),
    chain.flatten.length + chain.length < fuel → (∀ b ∈ full, b.length = tailroom) →
    frag.length < tailroom → Copied tailroom (full.flatten ++ frag ++ chain.flatten)
      (copyLoop tailroom fuel chain chain.flatten.length full frag)
  | 0, _, _, _, hfuel, _, _ => absurd hfuel (Nat.not_lt_zero _)
  | _ + 1, [], full, frag, _, hfull, hfrag => by
    exact ⟨⟨full, frag, rfl, hfull, hfrag⟩, by simp [copyLoop]⟩
  | n + 1, orig :: rest, full, frag, hfuel, hfull, hfrag => by
    have hcopy : (if orig.length < orig.length + rest.flatten.length then orig.length
        else orig.length + rest.flatten.length) = orig.length := by
      split_ifs <;> omega
    rw [flatten_cons, length_append, length_cons] at hfuel
    rw [copyLoop, flatten_cons, length_append]
    dsimp only
    rw [hcopy]
    split_ifs with hamount hle
    · have : orig ++ rest.flatten = [] := length_eq_zero_iff.mp (by simpa using hamount)
      exact ⟨⟨full, frag, rfl, hfull, hfrag⟩, by simp [this]⟩
    · have hlen : (frag ++ orig.take (tailroom - frag.length)).length = tailroom := by
        rw [length_append, length_take]
        omega
      have hdrop : (orig.drop (tailroom - frag.length) :: rest).flatten.length =
          orig.length + rest.flatten.length - (tailroom - frag.length) := by
        rw [flatten_cons, length_append, length_drop]
        omega
      have ih := copied_copyLoop tailroom n (orig.drop (tailroom - frag.length) :: rest)
        (full ++ [frag ++ orig.take (tailroom - frag.length)]) []
        (by rw [hdrop, length_cons]; omega)
        (by simpa [or_imp, forall_and, hlen] using hfull) (by rw [length_nil]; omega)
      rw [hdrop] at ih
      convert ih using 1
      simp only [flatten_append, flatten_cons, flatten_nil, append_nil, append_assoc]
      rw [← append_assoc (orig.take _), take_append_drop]
    · have hrest : orig.length + rest.flatten.length - orig.length = rest.flatten.length := by
        omega
      have ih := copied_copyLoop tailroom n rest full (frag ++ orig) (by omega)
        hfull (by rw [length_append]; omega)
      rw [hrest, take_length]
      convert ih using 1
      simp

variable {bytes : List Byte} {tailroom n : Nat}

theorem Copied.length_le {tailroom : Nat} (h : Copied tailroom bytes bufs) :
    ∀ b ∈ bufs, b.length ≤ tailroom := by
  obtain ⟨_, _, rfl, hfull, hlast⟩ := h.split
  intro b hb
  rcases mem_append.mp hb with hb | hb
  · exact Nat.le_of_eq (hfull b hb)
  · rw [mem_singleton.mp hb]
    exact Nat.le_of_lt hlast

theorem Copied.length_before {tailroom : Nat}
    (h : Copied tailroom bytes (before ++ frag :: after)) :
    before.flatten.length = before.length * tailroom := by
  obtain ⟨full, last, hsplit, hfull, -⟩ := h.split
  have hbefore : before <+: full := by
    have hlast : full = (full ++ [last]).dropLast := dropLast_concat.symm
    rw [hlast, ← hsplit, dropLast_append_of_ne_nil (by simp)]
    exact prefix_append ..
  have hmap : before.map length = replicate before.length tailroom := by
    refine eq_replicate_iff.mpr ⟨length_map .., ?_⟩
    simpa using fun b hb => hfull b (hbefore.subset hb)
  rw [length_flatten, hmap, sum_replicate_nat]

theorem Copied.hdr_le_iff (h : Copied tailroom bytes (frag :: after)) (hn : n ≤ bytes.length) :
    n ≤ frag.length ↔ n ≤ tailroom := by
  have hle := h.length_le frag mem_cons_self
  refine ⟨fun hfrag => Nat.le_trans hfrag hle, fun hroom => ?_⟩
  cases after with
  | nil => simpa [← h.flatten] using hn
  | cons next after =>
    have hfull : [frag].flatten.length = [frag].length * tailroom := h.length_before
    rw [flatten_singleton, length_singleton] at hfull
    omega

theorem Copied.place {first : Buf} {rest : List Buf}
    (h : Copied tailroom bytes (first :: rest)) (hn : n ≤ first.length)
    (hchain : first.drop n :: rest = before ++ frag :: after) :
    (before = [] ∨ n + before.flatten.length = before.length * tailroom) ∧
      n + before.flatten.length + frag.length ≤ (before.length + 1) * tailroom := by
  cases before with
  | nil =>
    obtain ⟨rfl, -⟩ := cons.inj hchain
    have := h.length_le first mem_cons_self
    refine ⟨.inl rfl, ?_⟩
    simp only [flatten_nil, length_nil, length_drop]
    omega
  | cons b before =>
    obtain ⟨rfl, rfl⟩ := cons.inj hchain
    have hfull : (first :: before).flatten.length = (before.length + 1) * tailroom :=
      h.length_before
    have hfrag := h.length_le frag (by simp)
    have hlen : n + (first.drop n :: before).flatten.length = (before.length + 1) * tailroom := by
      rw [← hfull, flatten_cons, flatten_cons, length_append, length_append, length_drop]
      omega
    rw [hlen, length_cons, Nat.add_one_mul (before.length + 1)]
    exact ⟨.inr rfl, Nat.add_le_add_left hfrag _⟩

theorem copied_netPktCopyAll (env : Env) (pkt : Pkt) :
    Copied env.tailroom pkt.frags.flatten (netPktCopyAll env.tailroom pkt.frags) := by
  have hfixed := pkt.fixed_le
  cases hfrags : pkt.frags with
  | nil => simp [hfrags] at hfixed
  | cons orig rest =>
    have hne : orig.length ≠ 0 := by
      rw [hfrags, headD_cons] at hfixed
      omega
    rw [netPktCopyAll, if_neg hne]
    simpa using copied_copyLoop env.tailroom _ (orig :: rest) [] [] (Nat.lt_succ_self _) (by simp)
      env.tailroom_pos

theorem length_header (final : Bool) : (makeFragment orig offset final bufs).header.length =
    orig.ipv6.length := by
  simp [makeFragment]

theorem len_makeFragment (final : Bool) : (makeFragment orig offset final bufs).len =
    orig.ipv6.length + fragHdrLen + bufs.flatten.length := by
  rw [Fragment.len, length_header]
  rfl

theorem toNat_offset (final : Bool) : (makeFragment orig offset final bufs).offset.toNat =
    offset.toNat / 8 * 8 + if final then 0 else 1 := by
  have hbit : (if final then 0#16 else 1#16).toNat = if final then 0 else 1 := by
    cases final <;> rfl
  have hsmall : (if final then 0 else 1) < 2 ^ 3 := by
    cases final <;> decide
  have hshift : (offset.toNat / 8) <<< 3 % 2 ^ 16 = (offset.toNat / 8) <<< 3 := by
    omega
  simp only [makeFragment, BitVec.toNat_or, BitVec.toNat_shiftLeft, BitVec.toNat_udiv,
    BitVec.toNat_ofNat]
  rw [hbit, hshift, ← Nat.shiftLeft_add_eq_or_of_lt hsmall, Nat.shiftLeft_eq]

theorem more_makeFragment (final : Bool) : (makeFragment orig offset final bufs).more = !final := by
  rw [Fragment.more, toNat_offset]
  cases final <;> simp <;> omega

theorem place_makeFragment {n : Nat} (h8 : 8 ∣ n) (hn : n < 2 ^ 16) (final : Bool) :
    (makeFragment orig (BitVec.ofNat 16 n) final bufs).place = n := by
  rw [Fragment.place, toNat_offset, BitVec.toNat_ofNat]
  split_ifs <;> omega

theorem sent_fragLoop (env : Env) (orig : Orig) : ∀ (bufs before : List Buf) (len : Nat)
    (offset : BitVec 16) (fragCount : Nat) (sent : List Fragment), ∃ more,
      (fragLoop env orig bufs before len offset fragCount sent).sent = sent ++ more ∧
      ∀ f ∈ more, f.header.length = orig.ipv6.length
  | [], before, _, offset, fragCount, sent => by
    rw [fragLoop]
    split_ifs
    · exact ⟨[], (append_nil _).symm, by simp⟩
    · exact ⟨[_], rfl, by simp [sendIpv6Fragment, length_header]⟩
  | frag :: after, before, len, offset, fragCount, sent => by
    rw [fragLoop]
    dsimp only
    split_ifs
    · exact ⟨[], (append_nil _).symm, by simp⟩
    · split
      · exact ⟨[_], rfl, by simp [sendIpv6Fragment, length_header]⟩
      · obtain ⟨more, hmore, hall⟩ := sent_fragLoop env orig after [_] 0 _ _ _
        refine ⟨_ :: more, hmore.trans (append_assoc ..), ?_⟩
        simpa [sendIpv6Fragment, length_header] using hall
    · exact sent_fragLoop env orig after _ _ _ _ _

theorem fragLoop_append : ∀ (pre before : List Buf) (len : Nat),
    len + pre.flatten.length ≤ room orig.ipv6.length →
    fragLoop env orig (pre ++ bufs) before len offset fragCount sent =
      fragLoop env orig bufs (before ++ pre) (len + pre.flatten.length) offset fragCount sent
  | [], before, len, _ => by simp
  | frag :: pre, before, len, h => by
    rw [flatten_cons, length_append] at h
    rw [cons_append, fragLoop]
    dsimp only
    rw [if_neg (by omega), fragLoop_append pre _ _ (by omega), append_assoc,
      singleton_append, flatten_cons, length_append, Nat.add_assoc]

theorem fragLoop_fits (h : len + bufs.flatten.length ≤ room orig.ipv6.length) :
    fragLoop env orig bufs before len offset fragCount sent =
      if env.errno (.send fragCount) ≠ 0 then .returned (-env.errno (.send fragCount)) sent
      else .returned 0 (sent ++ [makeFragment orig offset true (before ++ bufs)]) := by
  rw [← append_nil bufs, fragLoop_append bufs before len h, fragLoop]
  simp [sendIpv6Fragment]

theorem fragLoop_cons (h : room orig.ipv6.length < len + frag.length) :
    fragLoop env orig (frag :: after) before len offset fragCount sent =
      if env.errno (.send fragCount) ≠ 0 then .returned (-env.errno (.send fragCount)) sent
      else if room orig.ipv6.length ≤ len then
        .fault (sent ++ [makeFragment orig offset false before])
      else fragLoop env orig after [frag.drop (room orig.ipv6.length - len)] 0
        (offset + BitVec.ofNat 16 (room orig.ipv6.length)) (fragCount + 1)
        (sent ++ [makeFragment orig offset false
          (before ++ [frag.take (room orig.ipv6.length - len)])]) := by
  rw [fragLoop]
  split_ifs with herr hle
  · rfl
  · simp [sendIpv6Fragment, Nat.sub_eq_zero_of_le hle]
  · have hlen : ¬ frag.length < room orig.ipv6.length - len := by omega
    have hoff : len + frag.length - (frag.length - (room orig.ipv6.length - len)) =
        room orig.ipv6.length := by omega
    have hpos : 0 < room orig.ipv6.length - len := by omega
    simp [sendIpv6Fragment, netPktSplit, hlen, hoff, hpos, Nat.pos_iff_ne_zero.mp hpos]

def Pkt.fit (pkt : Pkt) : Nat := ipv6Mtu - fragHdrLen - pkt.hdrLen

structure Ready (env : Env) (pkt : Pkt) : Prop where
  clone : env.errno .clone = 0
  split : env.errno .split = 0
  hdrLen_le : pkt.hdrLen ≤ env.tailroom

theorem room_eq {n : Nat} (h : n ≤ ipv6Mtu - fragHdrLen) : room n = ipv6Mtu - fragHdrLen - n := by
  have hconst : ipv6Mtu - fragHdrLen = 1272 := rfl
  rw [room]
  omega

theorem send_cases (env : Env) (pkt : Pkt) :
    (¬ Ready env pkt ∧ ∃ status, netIpv6SendFragmentedPkt env pkt = .returned status []) ∨
    (Ready env pkt ∧ ∃ orig frag after, orig.ipv6.length = pkt.hdrLen ∧
      Copied env.tailroom pkt.frags.flatten (frag :: after) ∧ pkt.hdrLen ≤ frag.length ∧
      netIpv6SendFragmentedPkt env pkt =
        fragLoop env orig (frag.drop pkt.hdrLen :: after) [] 0 0#16 0 []) := by
  have hcopied := copied_netPktCopyAll env pkt
  unfold netIpv6SendFragmentedPkt
  by_cases hclone : env.errno .clone = 0
  · rw [if_neg (not_not_intro hclone)]
    cases hcopy : netPktCopyAll env.tailroom pkt.frags with
    | nil =>
      obtain ⟨_, _, hnil, -⟩ := (hcopy ▸ hcopied).split
      exact absurd hnil.symm (by simp)
    | cons frag after =>
      rw [hcopy] at hcopied
      have hle := hcopied.hdr_le_iff pkt.hdrLen_le
      have hidx := pkt.nextHdrIdx_lt
      dsimp only
      by_cases hhdr : pkt.hdrLen ≤ frag.length
      · rw [if_neg (by omega)]
        by_cases hsplit : env.errno .split = 0
        · have hlen : (frag.take pkt.hdrLen).length = pkt.hdrLen := by
            rw [length_take, Nat.min_eq_left hhdr]
          rw [if_neg (not_not_intro hsplit), netPktSplit, if_neg (by omega), if_neg (by omega)]
          exact .inr ⟨⟨hclone, hsplit, hle.mp hhdr⟩, _, frag, after, hlen, hcopied, hhdr, rfl⟩
        · rw [if_pos hsplit]
          exact .inl ⟨fun h => hsplit h.split, _, rfl⟩
      · rw [if_pos (.inr (by omega))]
        exact .inl ⟨fun h => hhdr (hle.mpr h.hdrLen_le), _, rfl⟩
  · rw [if_pos hclone]
    exact .inl ⟨fun h => hclone h.clone, _, rfl⟩

structure FirstCut (env : Env) (pkt : Pkt) (orig : Orig) (before : List Buf) (frag : Buf)
    (after : List Buf) : Prop where
  ipv6 : orig.ipv6.length = pkt.hdrLen
  room : room orig.ipv6.length = pkt.fit
  payload : (before ++ frag :: after).flatten = pkt.payload
  le : before.flatten.length ≤ pkt.fit
  lt : pkt.fit < before.flatten.length + frag.length
  dvd : before.flatten.length = pkt.fit → pkt.fit = 0 ∨ env.tailroom ∣ ipv6Mtu - fragHdrLen
  not_dvd : before.flatten.length < pkt.fit → ¬ env.tailroom ∣ ipv6Mtu - fragHdrLen
  run : netIpv6SendFragmentedPkt env pkt = fragLoop env orig (frag :: after) before
    before.flatten.length 0#16 0 []

theorem Ready.firstCut (h : Ready env pkt) (hhdr : pkt.hdrLen ≤ ipv6Mtu - fragHdrLen)
    (hlong : ipv6Mtu < pkt.frags.flatten.length) :
    ∃ orig before frag after, FirstCut env pkt orig before frag after := by
  obtain ⟨hnot, -⟩ | ⟨-, orig, first, rest, hipv6, hcopied, hfirst, hsend⟩ := send_cases env pkt
  · exact absurd h hnot
  have hroom : room orig.ipv6.length = pkt.fit := by
    rw [hipv6, room_eq hhdr, Pkt.fit]
  have hpayload : (first.drop pkt.hdrLen :: rest).flatten = pkt.payload := by
    rw [Pkt.payload, ← hcopied.flatten, flatten_cons, flatten_cons, drop_append_of_le_length hfirst]
  have hlen : pkt.fit < pkt.payload.length := by
    rw [Pkt.fit, Pkt.payload, length_drop]
    omega
  obtain ⟨before, frag, after, hchain, hle, hlt⟩ :=
    exists_append_cons_of_lt_flatten (first.drop pkt.hdrLen :: rest) pkt.fit (by rwa [hpayload])
  obtain ⟨hbefore, hend⟩ := hcopied.place hfirst hchain
  refine ⟨orig, before, frag, after, hipv6, hroom, hchain ▸ hpayload, hle, hlt, fun heq => ?_,
    fun hbelow hdvd => ?_, ?_⟩
  · rcases hbefore with rfl | hbefore
    · exact .inl heq.symm
    · refine .inr ⟨before.length, ?_⟩
      rw [Nat.mul_comm, ← hbefore, heq, Pkt.fit]
      omega
  · obtain ⟨k, hk⟩ := hdvd
    -- the cut is strictly between two multiples of the room in a buffer
    have hfit : pkt.hdrLen + pkt.fit = env.tailroom * k := by
      rw [Pkt.fit]
      omega
    have hlower : env.tailroom * before.length < env.tailroom * k := by
      rw [Nat.mul_comm]
      rcases hbefore with rfl | hbefore
      · rw [length_nil]
        omega
      · omega
    have hupper : env.tailroom * k < env.tailroom * (before.length + 1) := by
      rw [← hfit, Nat.mul_comm]
      omega
    have := Nat.lt_of_mul_lt_mul_left hlower
    have := Nat.lt_of_mul_lt_mul_left hupper
    omega
  · rw [hsend, hchain, fragLoop_append before [] 0 (by rw [hroom]; omega), nil_append, Nat.zero_add]

namespace FirstCut

variable (h : FirstCut env pkt orig before frag after)
include h

theorem payload_eq : pkt.payload = (before ++ [frag.take (pkt.fit - before.flatten.length)]).flatten
    ++ (frag.drop (pkt.fit - before.flatten.length) :: after).flatten := by
  simp only [← h.payload, flatten_append, flatten_cons, flatten_nil, append_nil, append_assoc]
  rw [← append_assoc (frag.take _), take_append_drop]

theorem length_first :
    (before ++ [frag.take (pkt.fit - before.flatten.length)]).flatten.length = pkt.fit := by
  have hle := h.le
  have hlt := h.lt
  rw [flatten_append, flatten_singleton, length_append, length_take]
  omega

theorem length_rest : 0 < (frag.drop (pkt.fit - before.flatten.length)).length ∧
    pkt.fit + ((frag.drop (pkt.fit - before.flatten.length)).length + after.flatten.length) =
      pkt.payload.length := by
  have hle := h.le
  have hlt := h.lt
  rw [← h.payload]
  simp only [flatten_append, flatten_cons, length_append, length_drop]
  omega

theorem run_eq : netIpv6SendFragmentedPkt env pkt =
    if env.errno (.send 0) ≠ 0 then .returned (-env.errno (.send 0)) []
    else if pkt.fit ≤ before.flatten.length then .fault [makeFragment orig 0#16 false before]
    else fragLoop env orig after [frag.drop (pkt.fit - before.flatten.length)] 0
      (BitVec.ofNat 16 pkt.fit) 1 [makeFragment orig 0#16 false
        (before ++ [frag.take (pkt.fit - before.flatten.length)])] := by
  rw [h.run, fragLoop_cons (by rw [h.room]; exact h.lt), h.room, BitVec.zero_add]
  rfl

end FirstCut

theorem Pkt.add_fit (h : pkt.hdrLen ≤ ipv6Mtu - fragHdrLen) :
    pkt.hdrLen + fragHdrLen + pkt.fit = ipv6Mtu := by
  have hmtu : ipv6Mtu - fragHdrLen + fragHdrLen = ipv6Mtu := rfl
  rw [Pkt.fit]
  omega

theorem Pkt.dvd_fit (pkt : Pkt) : 8 ∣ pkt.fit := by
  have hmtu : 8 ∣ ipv6Mtu - fragHdrLen := by decide
  exact Nat.dvd_sub hmtu pkt.dvd_hdrLen

theorem fragmented_two {first second : List Buf} (hhdr : pkt.hdrLen ≤ ipv6Mtu - fragHdrLen)
    (hipv6 : orig.ipv6.length = pkt.hdrLen)
    (hpayload : pkt.payload = first.flatten ++ second.flatten)
    (hfirst : first.flatten.length = pkt.fit) (hsecond : second.flatten.length ≤ pkt.fit) :
    Fragmented pkt.payload [makeFragment orig 0#16 false first,
      makeFragment orig (BitVec.ofNat 16 pkt.fit) true second] := by
  have hfit := Pkt.add_fit hhdr
  have hmtu : ipv6Mtu < 2 ^ 16 := by decide
  constructor
  case fits =>
    simp only [mem_cons, not_mem_nil, or_false, forall_eq_or_imp, forall_eq, len_makeFragment]
    omega
  case tiles =>
    have hplace : (makeFragment orig 0#16 false first).place = 0 :=
      place_makeFragment (Nat.dvd_zero 8) (by decide) false
    rw [map_cons, map_cons, hplace, place_makeFragment pkt.dvd_fit (by omega), hpayload, ← hfirst]
    exact (assembles_nil.concat (e := first.flatten)).concat
  case more =>
    intro f hf
    obtain rfl := mem_singleton.mp hf
    exact ⟨hfirst ▸ pkt.dvd_fit, more_makeFragment false⟩
  case final => exact ⟨_, rfl, more_makeFragment true⟩

theorem Fragmented.ne_nil {payload : List Byte} (h : Fragmented payload sent) : sent ≠ [] := by
  obtain ⟨f, hf, -⟩ := h.final
  rintro rfl
  exact nomatch hf

theorem Fragmented.ne_singleton (h : Fragmented pkt.payload sent)
    (hlong : pkt.fit < pkt.payload.length) (hlen : bufs.flatten.length = pkt.fit) :
    sent ≠ [makeFragment orig 0#16 false bufs] := by
  rintro rfl
  obtain ⟨p, hp, -, hlt⟩ := h.tiles.exists_piece hlong
  obtain rfl := mem_singleton.mp hp
  have hplace : (makeFragment orig 0#16 false bufs).place = 0 :=
    place_makeFragment (Nat.dvd_zero 8) (by decide) false
  have hpayload : (makeFragment orig 0#16 false bufs).payload.length = pkt.fit := hlen
  dsimp only at hlt
  omega

variable {status : Int}

theorem rest_of_fragmented {first : List Buf} {rest : Buf} (hipv6 : orig.ipv6.length = pkt.hdrLen)
    (hhdr : pkt.hdrLen ≤ ipv6Mtu - fragHdrLen) (hfirst : first.flatten.length = pkt.fit)
    (hpos : 0 < rest.length)
    (hrest : pkt.fit + (rest.length + after.flatten.length) = pkt.payload.length)
    (hrun : fragLoop env orig after [rest] 0 (BitVec.ofNat 16 pkt.fit) 1
      [makeFragment orig 0#16 false first] = .returned status sent)
    (hsent : Fragmented pkt.payload sent) :
    env.errno (.send 1) = 0 ∧ pkt.payload.length ≤ 2 * pkt.fit := by
  have hfit := Pkt.add_fit hhdr
  have hroom : room orig.ipv6.length = pkt.fit := by
    rw [hipv6, room_eq hhdr, Pkt.fit]
  have hone : sent ≠ [makeFragment orig 0#16 false first] :=
    hsent.ne_singleton (by omega) hfirst
  rcases Nat.lt_or_ge pkt.fit after.flatten.length with hcut | hfits
  · exfalso
    obtain ⟨pre, frag, after', rfl, hle, hlt⟩ := exists_append_cons_of_lt_flatten after _ hcut
    rw [fragLoop_append pre _ 0 (by omega), fragLoop_cons (by omega), hroom, Nat.zero_add] at hrun
    split_ifs at hrun with h1
    · obtain ⟨-, rfl⟩ := Outcome.returned.inj hrun
      exact hone rfl
    · -- the rest of the buffer comes on top of a full fragment
      obtain ⟨_, hmore, -⟩ := sent_fragLoop env orig after'
        [frag.drop (pkt.fit - pre.flatten.length)] 0
        (BitVec.ofNat 16 pkt.fit + BitVec.ofNat 16 pkt.fit) (1 + 1) _
      rw [hrun] at hmore
      have hlen := hsent.fits _ (by
        rw [show sent = _ from hmore]
        exact mem_append_left _ (mem_append_right _ (mem_singleton_self _)))
      simp only [len_makeFragment, flatten_append, flatten_cons, length_append, length_take] at hlen
      omega
  · rw [fragLoop_fits (by omega)] at hrun
    split_ifs at hrun with h1
    · obtain ⟨-, rfl⟩ := Outcome.returned.inj hrun
      exact absurd rfl hone
    · obtain ⟨-, rfl⟩ := Outcome.returned.inj hrun
      have hlen := hsent.fits _ (mem_append_right _ (mem_singleton_self _))
      rw [len_makeFragment, singleton_append, flatten_cons, length_append] at hlen
      exact ⟨not_not.mp h1, by omega⟩

theorem FirstCut.of_fragmented (h : FirstCut env pkt orig before frag after)
    (hhdr : pkt.hdrLen ≤ ipv6Mtu - fragHdrLen)
    (hsend : netIpv6SendFragmentedPkt env pkt = .returned status sent)
    (hsent : Fragmented pkt.payload sent) :
    env.errno (.send 0) = 0 ∧ before.flatten.length < pkt.fit ∧ env.errno (.send 1) = 0 ∧
      pkt.payload.length ≤ 2 * pkt.fit := by
  rw [h.run_eq] at hsend
  split_ifs at hsend with h0 hle
  · obtain ⟨-, rfl⟩ := Outcome.returned.inj hsend
    exact absurd rfl hsent.ne_nil
  · exact ⟨not_not.mp h0, by omega, rest_of_fragmented h.ipv6 hhdr h.length_first h.length_rest.1
      h.length_rest.2 hsend hsent⟩

/-- There are buffers for two fragments, the headers are in the first buffer of the copy, no buffer
of the copy ends where the first fragment does, and two fragments are enough. -/
structure Sendable (env : Env) (pkt : Pkt) : Prop where
  ready : Ready env pkt
  first : env.errno (.send 0) = 0
  second : env.errno (.send 1) = 0
  hdrLen_le : pkt.hdrLen ≤ ipv6Mtu - fragHdrLen
  not_dvd : ¬ env.tailroom ∣ ipv6Mtu - fragHdrLen
  length_le : pkt.payload.length ≤ 2 * pkt.fit

theorem fit_lt_length (hhdr : pkt.hdrLen ≤ ipv6Mtu - fragHdrLen)
    (hlong : ipv6Mtu < pkt.frags.flatten.length) : pkt.fit < pkt.payload.length := by
  have hfit := Pkt.add_fit hhdr
  rw [Pkt.payload, length_drop]
  omega

theorem Sendable.fragmented (h : Sendable env pkt) (hlong : ipv6Mtu < pkt.frags.flatten.length) :
    ∃ sent, netIpv6SendFragmentedPkt env pkt = .returned 0 sent ∧ Fragmented pkt.payload sent := by
  obtain ⟨_, before, _, _, hcut⟩ := h.ready.firstCut h.hdrLen_le hlong
  have hlen := fit_lt_length h.hdrLen_le hlong
  have htwo := h.length_le
  have hlt : before.flatten.length < pkt.fit := by
    refine Nat.lt_of_le_of_ne hcut.le fun heq => ?_
    rcases hcut.dvd heq with hzero | hdvd
    · omega
    · exact h.not_dvd hdvd
  have hrest := hcut.length_rest
  have hrun := hcut.run_eq
  rw [if_neg (not_not_intro h.first), if_neg (by omega), fragLoop_fits (by rw [hcut.room]; omega),
    if_neg (not_not_intro h.second)] at hrun
  refine ⟨_, hrun, fragmented_two h.hdrLen_le hcut.ipv6 hcut.payload_eq hcut.length_first ?_⟩
  rw [singleton_append, flatten_cons, length_append]
  omega

theorem sendable_of_fragmented (hlong : ipv6Mtu < pkt.frags.flatten.length)
    (hsend : netIpv6SendFragmentedPkt env pkt = .returned status sent)
    (hsent : Fragmented pkt.payload sent) : Sendable env pkt := by
  obtain ⟨-, _, hstop⟩ | ⟨hready, orig, first, rest, hipv6, -, -, hrun⟩ := send_cases env pkt
  · obtain ⟨-, rfl⟩ := Outcome.returned.inj (hsend.symm.trans hstop)
    exact absurd rfl hsent.ne_nil
  have hhdr : pkt.hdrLen ≤ ipv6Mtu - fragHdrLen := by
    obtain ⟨f, hf⟩ := exists_mem_of_ne_nil _ hsent.ne_nil
    obtain ⟨more, hmore, hall⟩ := sent_fragLoop env orig (first.drop pkt.hdrLen :: rest) [] 0 0#16
      0 []
    rw [← hrun, hsend] at hmore
    have hlen := hsent.fits f hf
    obtain rfl : sent = more := hmore
    have hheader := hall f hf
    rw [Fragment.len, hheader] at hlen
    omega
  obtain ⟨orig, _, _, _, hcut⟩ := hready.firstCut hhdr hlong
  obtain ⟨h0, hlt, h1, htwo⟩ := hcut.of_fragmented hhdr hsend hsent
  exact ⟨hready, h0, h1, hhdr, hcut.not_dvd hlt, htwo⟩

def buffersOf (n : Nat) (h : 0 < n) : Env := ⟨fun _ => 0, n, 7#32, h⟩

def plainPkt (n : Nat) (h : 40 ≤ n) : Pkt where
  frags := [replicate n 0#8]
  hdrLen := 40
  nextHdrIdx := 6
  fixed_le := by simpa using h
  fixed_le_hdrLen := by decide
  dvd_hdrLen := by decide
  hdrLen_le := by simpa using h
  nextHdrIdx_lt := by decide

theorem length_plainPkt (n : Nat) (h : 40 ≤ n) : (plainPkt n h).frags.flatten.length = n := by
  simp [plainPkt]

theorem length_payload_plainPkt (n : Nat) (h : 40 ≤ n) :
    (plainPkt n h).payload.length = n - 40 := by
  rw [Pkt.payload, length_drop, length_plainPkt]
  rfl

end Zephyr.Ipv6Frag
