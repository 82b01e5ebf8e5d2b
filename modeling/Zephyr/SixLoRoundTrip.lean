import Zephyr.SixLo

/-! What `net_6lo_uncompress` makes of a packet that `net_6lo_compress` made: the packet itself,
with the addresses that were elided or shortened put together anew. -/

namespace Zephyr.SixLo

open List Option

variable {env : Env} {zep1656 : Bool} {ll : LinkAddr} {addr : List Byte} {c : Buf} {off : Nat}
  {ipv6 : Ipv6Hdr} {udp : UdpHdr} {b : Buf}

def fullyElided (zep1656 : Bool) (addr : List Byte) (ll : LinkAddr) : Bool :=
  isLlAddr addr && llPrefixPaddedWithZeros addr && !addr16BitCompressible addr &&
    addrBasedOnLl zep1656 addr ll

def restoreUnicast (zep1656 : Bool) (ll : LinkAddr) (addr : List Byte) : List Byte :=
  if fullyElided zep1656 addr ll then addrCreateIid zep1656 ll else addr

def restoreMcast (addr : List Byte) : List Byte :=
  if maddr8BitCompressible addr then 0xFF#8 :: 0x02#8 :: replicate 13 0#8 ++ slice addr 15 1
  else if maddr32BitCompressible addr then
    0xFF#8 :: addr.getD 1 0 :: replicate 11 0#8 ++ slice addr 13 3
  else if maddr48BitCompressible addr then
    0xFF#8 :: addr.getD 1 0 :: replicate 9 0#8 ++ slice addr 11 5
  else addr

def restoreSrc (env : Env) (addr : List Byte) : List Byte :=
  restoreUnicast env.zep1656 env.llSrc addr

def restoreDst (env : Env) (addr : List Byte) : List Byte :=
  if isAddrMcast addr then restoreMcast addr else restoreUnicast env.zep1656 env.llDst addr

theorem exists_bytes (h : addr.length = 16) :
    ∃ a b c d e f g h i j k l m n o p, addr = [a, b, c, d, e, f, g, h, i, j, k, l, m, n, o, p] := by
  match addr, h with
  | [a, b, c, d, e, f, g, h, i, j, k, l, m, n, o, p], _ =>
    exact ⟨a, b, c, d, e, f, g, h, i, j, k, l, m, n, o, p, rfl⟩

theorem addrCreateIid_length : (addrCreateIid zep1656 ll).length = 16 := by
  unfold addrCreateIid
  split
  · split <;> rfl
  all_goals rfl

theorem restoreUnicast_length (h : addr.length = 16) :
    (restoreUnicast zep1656 ll addr).length = 16 := by
  unfold restoreUnicast
  split
  · exact addrCreateIid_length
  · exact h

theorem restoreMcast_length (h : addr.length = 16) : (restoreMcast addr).length = 16 := by
  obtain ⟨a, b, c, d, e, f, g, h, i, j, k, l, m, n, o, p, rfl⟩ := exists_bytes h
  unfold restoreMcast
  split
  · rfl
  split
  · rfl
  split <;> rfl

theorem restoreDst_length (h : addr.length = 16) : (restoreDst env addr).length = 16 := by
  unfold restoreDst
  split
  · exact restoreMcast_length h
  · exact restoreUnicast_length h

/-- The address has in every byte what `net_ipv6_addr_create_iid` will put there: a link-layer
address of two bytes leaves the byte 13 open, one of Bluetooth the byte 8. -/
def IidExact (zep1656 : Bool) (ll : LinkAddr) (addr : List Byte) : Prop :=
  fullyElided zep1656 addr ll → ll.addr.length ≠ 2 ∧
    (ll.type = .bluetooth → ll.addr.length = 6 → zep1656 = false → addr.getD 8 0 = ll.addr.getD 0 0)

def McastExact (addr : List Byte) : Prop :=
  if maddr8BitCompressible addr then slice addr 12 2 = [0#8, 0#8]
  else maddr32BitCompressible addr ∨ maddr48BitCompressible addr → slice addr 2 2 = [0#8, 0#8]

theorem toggled_eq_iff {a b : Byte} : toggled true a = b ↔ b ^^^ 0x02#8 = a := by
  rw [toggled, if_pos rfl]
  constructor
  · rintro rfl
    rw [BitVec.xor_assoc, BitVec.xor_self, BitVec.xor_zero]
  · rintro rfl
    rw [BitVec.xor_assoc, BitVec.xor_self, BitVec.xor_zero]

theorem addrCreateIid_eq_iff (hlen : addr.length = 16) (helided : fullyElided zep1656 addr ll) :
    addrCreateIid zep1656 ll = addr ↔ ll.addr.length ≠ 2 ∧
      (ll.type = .bluetooth → ll.addr.length = 6 → zep1656 = false →
        addr.getD 8 0 = ll.addr.getD 0 0) := by
  obtain ⟨a, b, c, d, e, f, g, h, i, j, k, l, m, n, o, p, rfl⟩ := exists_bytes hlen
  simp only [fullyElided, Bool.and_eq_true, Bool.not_eq_true'] at helided
  obtain ⟨⟨⟨hll, hpad⟩, h16⟩, hbased⟩ := helided
  simp only [isLlAddr, beq_iff_eq] at hll
  simp [llPrefixPaddedWithZeros] at hpad
  simp [addr16BitCompressible, slice] at h16
  obtain ⟨rfl, rfl⟩ := hll
  obtain ⟨⟨rfl, rfl⟩, rfl, rfl, rfl, rfl⟩ := hpad
  unfold addrBasedOnLl at hbased
  split at hbased
  · next x y hxy =>
    simp at hbased
    obtain ⟨⟨⟨rfl, rfl⟩, rfl, rfl, rfl⟩, rfl, rfl⟩ := hbased
    have hn : ¬ 0#8 = n := fun heq => h16 rfl rfl rfl rfl rfl heq.symm
    simp only [addrCreateIid, hxy]
    split <;> simp [hn]
  · next x y z u v w hxy =>
    split at hbased
    · next htype =>
      simp at hbased
      obtain ⟨⟨⟨⟨rfl, rfl⟩, rfl, rfl, rfl⟩, rfl, rfl⟩, hx⟩ := hbased
      simp [addrCreateIid, hxy, htype, toggled_eq_iff.mpr hx]
    · next htype =>
      simp at hbased
      obtain ⟨⟨⟨⟨rfl, rfl⟩, rfl, rfl, rfl⟩, rfl, rfl⟩, hx⟩ := hbased
      cases zep1656 with
      | false =>
        simp [addrCreateIid, hxy, htype]
        exact eq_comm
      | true => simp [addrCreateIid, hxy, htype, toggled_eq_iff.mpr (hx.resolve_left (by simp))]
    · cases hbased
  · next x y z u v w s t hxy =>
    simp at hbased
    obtain ⟨⟨rfl, rfl, rfl, rfl, rfl, rfl, rfl⟩, hx⟩ := hbased
    simp [addrCreateIid, hxy, toggled_eq_iff.mpr hx]
  · cases hbased

theorem restoreUnicast_eq_iff (hlen : addr.length = 16) :
    restoreUnicast zep1656 ll addr = addr ↔ IidExact zep1656 ll addr := by
  by_cases helided : fullyElided zep1656 addr ll
  · simp only [restoreUnicast, IidExact, helided, forall_const]
    exact addrCreateIid_eq_iff hlen helided
  · simp [restoreUnicast, IidExact, helided]

theorem restoreMcast_eq_iff (hlen : addr.length = 16) (hm : isAddrMcast addr) :
    restoreMcast addr = addr ↔ McastExact addr := by
  obtain ⟨a, b, c, d, e, f, g, h, i, j, k, l, m, n, o, p, rfl⟩ := exists_bytes hlen
  obtain rfl : a = 0xFF#8 := by simpa [isAddrMcast] using hm
  unfold restoreMcast McastExact
  split_ifs with h8 h32 h48
  · simp [maddr8BitCompressible] at h8
    obtain ⟨⟨⟨⟨rfl, rfl, rfl⟩, rfl, rfl, rfl, rfl⟩, rfl, rfl, rfl, rfl⟩, rfl⟩ := h8
    simp [slice]
    exact and_congr eq_comm eq_comm
  · simp only [h32]
    simp [maddr32BitCompressible] at h32
    obtain ⟨⟨⟨rfl, rfl, rfl, rfl⟩, rfl, rfl, rfl, rfl⟩, rfl⟩ := h32
    simp [slice]
    exact and_congr eq_comm eq_comm
  · simp only [h48]
    simp [maddr48BitCompressible] at h48
    obtain ⟨⟨⟨rfl, rfl, rfl, rfl⟩, rfl, rfl⟩, rfl⟩ := h48
    simp [slice]
    exact and_congr eq_comm eq_comm
  · simp [h32, h48]

def AddrsExact (env : Env) (ipv6 : Ipv6Hdr) : Prop :=
  IidExact env.zep1656 env.llSrc ipv6.src ∧
    if isAddrMcast ipv6.dst then McastExact ipv6.dst
    else IidExact env.zep1656 env.llDst ipv6.dst

theorem restoreDst_eq_iff (hlen : addr.length = 16) : restoreDst env addr = addr ↔
    if isAddrMcast addr then McastExact addr else IidExact env.zep1656 env.llDst addr := by
  unfold restoreDst
  split
  · next hm => exact restoreMcast_eq_iff hlen hm
  · exact restoreUnicast_eq_iff hlen

theorem compressNh_fst (ipv6 : Ipv6Hdr) : (compressNh ipv6).1 ∈ [0x00#8, 0x04#8] := by
  unfold compressNh
  split <;> simp

theorem compressHoplimit_fst (ipv6 : Ipv6Hdr) :
    (compressHoplimit ipv6).1 ∈ [0x00#8, 0x01#8, 0x02#8, 0x03#8] := by
  unfold compressHoplimit
  split_ifs <;> simp

theorem firstByte_bits : ∀ nh ∈ [0x00#8, 0x04#8], ∀ hl ∈ [0x00#8, 0x01#8, 0x02#8, 0x03#8],
    let b := dispatchIphc ||| 0x18#8 ||| nh ||| hl
    b &&& dispatchIphc = dispatchIphc ∧ b &&& 0x18#8 = 0x18#8 ∧ b &&& 0x04#8 = nh ∧
      b &&& 0x03#8 = hl := by
  decide

def saBits : List Byte := [0x40#8, 0x30#8, 0x20#8, 0x10#8, 0x00#8]

def daBits : List Byte := [0x0B#8, 0x0A#8, 0x09#8, 0x08#8, 0x03#8, 0x02#8, 0x01#8, 0x00#8]

theorem compressSa_fst (env : Env) (ipv6 : Ipv6Hdr) : (compressSa env ipv6).1 ∈ saBits := by
  unfold compressSa
  split_ifs <;> simp [saBits]

theorem compressDa_fst (env : Env) (ipv6 : Ipv6Hdr) : (compressDa env ipv6).1 ∈ daBits := by
  unfold compressDa compressDaMcast
  split_ifs <;> simp [daBits]

theorem secondByte_bits : ∀ sa ∈ saBits, ∀ da ∈ daBits,
    (sa ||| da) &&& 0x80#8 = 0#8 ∧ (sa ||| da) &&& 0x40#8 = sa &&& 0x40#8 ∧
      (sa ||| da) &&& 0x30#8 = sa &&& 0x30#8 ∧ (sa ||| da) &&& 0x08#8 = da &&& 0x08#8 ∧
      (sa ||| da) &&& 0x04#8 = 0#8 ∧ (sa ||| da) &&& 0x03#8 = da &&& 0x03#8 := by
  decide

theorem uncompressNh_compressNh (hbit : c.getD 0 0 &&& 0x04#8 = (compressNh ipv6).1)
    (hat : HoldsAt c off (compressNh ipv6).2) :
    uncompressNh c off = (ipv6.nexthdr, off + (compressNh ipv6).2.length) := by
  unfold uncompressNh
  unfold compressNh at *
  by_cases hudp : ipv6.nexthdr = ipprotoUdp
  · rw [hbit, hudp]
    rfl
  · rw [if_neg hudp] at hbit hat ⊢
    rw [hbit, hat.getD_eq]
    rfl

theorem uncompressHoplimit_compressHoplimit
    (hbit : c.getD 0 0 &&& 0x03#8 = (compressHoplimit ipv6).1)
    (hat : HoldsAt c off (compressHoplimit ipv6).2) :
    uncompressHoplimit c off = (ipv6.hopLimit, off + (compressHoplimit ipv6).2.length) := by
  simp only [uncompressHoplimit, hbit]
  unfold compressHoplimit at *
  by_cases h1 : ipv6.hopLimit = 1#8
  · rw [h1]
    rfl
  rw [if_neg h1] at hat ⊢
  by_cases h64 : ipv6.hopLimit = 64#8
  · rw [h64]
    rfl
  rw [if_neg h64] at hat ⊢
  by_cases h255 : ipv6.hopLimit = 255#8
  · rw [h255]
    rfl
  · rw [if_neg h255] at hat ⊢
    rw [hat.getD_eq]
    rfl

def unicastForm (zep1656 : Bool) (ll : LinkAddr) (addr : List Byte) : Byte × List Byte :=
  if isLlAddr addr && llPrefixPaddedWithZeros addr then
    if addr16BitCompressible addr then (2#8, slice addr 14 2)
    else if addrBasedOnLl zep1656 addr ll then (3#8, [])
    else (1#8, slice addr 8 8)
  else (0#8, addr)

theorem eq_prefix_append (hlen : addr.length = 16)
    (hll : isLlAddr addr && llPrefixPaddedWithZeros addr) :
    addr = [0xFE#8, 0x80#8, 0#8, 0#8, 0#8, 0#8, 0#8, 0#8] ++ slice addr 8 8 := by
  obtain ⟨a, b, c, d, e, f, g, h, i, j, k, l, m, n, o, p, rfl⟩ := exists_bytes hlen
  simp [isLlAddr, llPrefixPaddedWithZeros] at hll
  obtain ⟨⟨rfl, rfl⟩, ⟨rfl, rfl⟩, rfl, rfl, rfl, rfl⟩ := hll
  rfl

theorem slice_eq_append (hlen : addr.length = 16) (h16 : addr16BitCompressible addr) :
    slice addr 8 8 = [0#8, 0#8, 0#8, 0xFF#8, 0xFE#8, 0#8] ++ slice addr 14 2 := by
  obtain ⟨a, b, c, d, e, f, g, h, i, j, k, l, m, n, o, p, rfl⟩ := exists_bytes hlen
  simp [addr16BitCompressible] at h16
  obtain ⟨⟨rfl, rfl, rfl, rfl⟩, rfl, rfl⟩ := h16
  rfl

theorem uncompressUnicast_unicastForm (hlen : addr.length = 16)
    (hat : HoldsAt c off (unicastForm zep1656 ll addr).2) :
    uncompressUnicast zep1656 ll c (unicastForm zep1656 ll addr).1 off =
      (restoreUnicast zep1656 ll addr, off + (unicastForm zep1656 ll addr).2.length) := by
  have hread := hat.slice_eq
  by_cases hll : isLlAddr addr && llPrefixPaddedWithZeros addr
  · by_cases h16 : addr16BitCompressible addr
    · have hform : unicastForm zep1656 ll addr = (2#8, slice addr 14 2) := by
        rw [unicastForm, if_pos hll, if_pos h16]
      have h2 : (slice addr 14 2).length = 2 := slice_length (by omega)
      have haddr := eq_prefix_append hlen hll
      simp only [hform, h2] at hread ⊢
      rw [slice_eq_append hlen h16, ← hread] at haddr
      rw [restoreUnicast, fullyElided, h16, Bool.not_true, Bool.and_false]
      exact Prod.ext haddr.symm rfl
    by_cases hbased : addrBasedOnLl zep1656 addr ll
    · simp [unicastForm, uncompressUnicast, restoreUnicast, fullyElided, hll, h16, hbased]
    · have hform : unicastForm zep1656 ll addr = (1#8, slice addr 8 8) := by
        rw [unicastForm, if_pos hll, if_neg h16, if_neg hbased]
      have h8 : (slice addr 8 8).length = 8 := slice_length (by omega)
      have haddr := eq_prefix_append hlen hll
      simp only [hform, h8] at hread ⊢
      rw [← hread] at haddr
      rw [restoreUnicast, fullyElided, eq_false_of_ne_true hbased, Bool.and_false]
      exact Prod.ext haddr.symm rfl
  · have hform : unicastForm zep1656 ll addr = (0#8, addr) := by rw [unicastForm, if_neg hll]
    simp only [hform, hlen] at hread ⊢
    rw [restoreUnicast, fullyElided, eq_false_of_ne_true hll]
    exact Prod.ext hread rfl

theorem compressSa_eq (env : Env) (ipv6 : Ipv6Hdr) : compressSa env ipv6 =
    if isAddrUnspecified ipv6.src then (0x40#8, [])
    else ((unicastForm env.zep1656 env.llSrc ipv6.src).1 <<< 4,
      (unicastForm env.zep1656 env.llSrc ipv6.src).2) := by
  unfold compressSa unicastForm
  split_ifs <;> rfl

theorem compressDa_eq (env : Env) (ipv6 : Ipv6Hdr) : compressDa env ipv6 =
    if isAddrMcast ipv6.dst then compressDaMcast ipv6
    else unicastForm env.zep1656 env.llDst ipv6.dst := by
  unfold compressDa unicastForm
  split_ifs <;> rfl

theorem unicastForm_fst (zep1656 : Bool) (ll : LinkAddr) (addr : List Byte) :
    (unicastForm zep1656 ll addr).1 ∈ [0#8, 1#8, 2#8, 3#8] := by
  unfold unicastForm
  split_ifs <;> simp

theorem uncompressSa_compressSa (hlen : ipv6.src.length = 16)
    (hsac : c.getD 1 0 &&& 0x40#8 = (compressSa env ipv6).1 &&& 0x40#8)
    (hsam : c.getD 1 0 &&& 0x30#8 = (compressSa env ipv6).1 &&& 0x30#8)
    (hat : HoldsAt c off (compressSa env ipv6).2) :
    uncompressSa env c off =
      some (restoreSrc env ipv6.src, off + (compressSa env ipv6).2.length) := by
  simp only [uncompressSa, hsac, hsam]
  rw [compressSa_eq] at hat ⊢
  by_cases hun : isAddrUnspecified ipv6.src
  · rw [if_pos hun]
    have hsrc : ipv6.src = replicate 16 0#8 := by simpa [isAddrUnspecified] using hun
    rw [hsrc]
    rfl
  · rw [if_neg hun] at hat ⊢
    have hbits : ∀ m ∈ [0#8, 1#8, 2#8, 3#8],
        m <<< 4 &&& 0x40#8 = 0#8 ∧ (m <<< 4 &&& 0x30#8) >>> 4 = m := by decide
    obtain ⟨h40, h30⟩ := hbits _ (unicastForm_fst env.zep1656 env.llSrc ipv6.src)
    rw [if_neg (by simp [h40]), h30, uncompressUnicast_unicastForm hlen hat]
    rfl

theorem uncompressDaMcast_compressDaMcast (hlen : ipv6.dst.length = 16)
    (hdac : c.getD 1 0 &&& 0x04#8 = 0#8)
    (hdam : c.getD 1 0 &&& 0x03#8 = (compressDaMcast ipv6).1 &&& 0x03#8)
    (hat : HoldsAt c off (compressDaMcast ipv6).2) :
    uncompressDaMcast c off = (restoreMcast ipv6.dst, off + (compressDaMcast ipv6).2.length) := by
  have hhead : slice ipv6.dst 1 1 = [ipv6.dst.getD 1 0] := slice_one (by omega)
  simp only [uncompressDaMcast, hdac, hdam]
  rw [if_neg (by decide)]
  unfold compressDaMcast at *
  unfold restoreMcast
  by_cases h8 : maddr8BitCompressible ipv6.dst
  · have hlast : slice ipv6.dst 15 1 = [ipv6.dst.getD 15 0] := slice_one (by omega)
    simp only [if_pos h8, hlast] at hat ⊢
    rw [hat.getD_eq]
    rfl
  by_cases h32 : maddr32BitCompressible ipv6.dst
  · simp only [if_neg h8, if_pos h32, hhead, holdsAt_append] at hat ⊢
    have hread := hat.2.slice_eq
    rw [slice_length (by omega)] at hread
    rw [if_neg (by decide), if_neg (by decide), hat.1.getD_eq, length_append,
      slice_length (by omega), ← hread]
    rfl
  by_cases h48 : maddr48BitCompressible ipv6.dst
  · simp only [if_neg h8, if_neg h32, if_pos h48, hhead, holdsAt_append] at hat ⊢
    have hread := hat.2.slice_eq
    rw [slice_length (by omega)] at hread
    rw [if_neg (by decide), hat.1.getD_eq, length_append, slice_length (by omega), ← hread]
    rfl
  · simp only [if_neg h8, if_neg h32, if_neg h48] at hat ⊢
    have hread := hat.slice_eq
    rw [hlen] at hread ⊢
    rw [if_pos (by decide), hread]

theorem uncompressDa_compressDa (hlen : ipv6.dst.length = 16)
    (hm : c.getD 1 0 &&& 0x08#8 = (compressDa env ipv6).1 &&& 0x08#8)
    (hdac : c.getD 1 0 &&& 0x04#8 = 0#8)
    (hdam : c.getD 1 0 &&& 0x03#8 = (compressDa env ipv6).1 &&& 0x03#8)
    (hat : HoldsAt c off (compressDa env ipv6).2) :
    uncompressDa env c off = (restoreDst env ipv6.dst, off + (compressDa env ipv6).2.length) := by
  rw [compressDa_eq] at hm hdam hat ⊢
  unfold uncompressDa restoreDst
  by_cases hmcast : isAddrMcast ipv6.dst
  · rw [if_pos hmcast] at hm hdam hat ⊢
    have hbit : (compressDaMcast ipv6).1 &&& 0x08#8 ≠ 0#8 := by
      unfold compressDaMcast
      split_ifs <;> simp
    rw [if_pos (hm ▸ hbit), if_pos hmcast]
    exact uncompressDaMcast_compressDaMcast hlen hdac hdam hat
  · rw [if_neg hmcast] at hm hdam hat ⊢
    have hbits : ∀ m ∈ [0#8, 1#8, 2#8, 3#8], m &&& 0x08#8 = 0#8 ∧ m &&& 0x03#8 = m := by decide
    obtain ⟨h08, h03⟩ := hbits _ (unicastForm_fst env.zep1656 env.llDst ipv6.dst)
    rw [if_neg (by rw [hm, h08]; decide), if_neg hmcast, hdam, h03]
    exact uncompressUnicast_unicastForm hlen hat

theorem be16_htons {b : List Byte} (h : b.length = 2) : be16 (htons b) = b := by
  match b, h with
  | [x, y], _ =>
    simp only [be16, htons, getD_cons_zero, getD_cons_succ, cons.injEq, and_true]
    constructor <;> bv_omega

theorem htons_lt (b : List Byte) : htons b < 65536 := by
  unfold htons
  omega

theorem toNat_nibbles (s d : Nat) :
    (BitVec.ofNat 8 s <<< 4 ||| BitVec.ofNat 8 d &&& 0x0F#8).toNat = s % 16 * 16 + d % 16 := by
  have hs : s % 2 ^ 8 * 2 ^ 4 % 2 ^ 8 = (s % 16) <<< 4 := by
    omega
  have hd : d % 2 ^ 8 &&& 15 % 2 ^ 8 = d % 16 := by
    rw [show 15 % 2 ^ 8 = 2 ^ 4 - 1 from rfl, Nat.and_two_pow_sub_one_eq_mod]
    omega
  rw [BitVec.toNat_or, BitVec.toNat_shiftLeft, BitVec.toNat_and, BitVec.toNat_ofNat,
    BitVec.toNat_ofNat, BitVec.toNat_ofNat, Nat.shiftLeft_eq, hs, hd,
    ← Nat.shiftLeft_add_eq_or_of_lt (Nat.mod_lt d (by decide)), Nat.shiftLeft_eq]

def portsForm (udp : UdpHdr) : Byte × List Byte :=
  let src := htons udp.srcPort
  let dst := htons udp.dstPort
  if src / 16 % 4096 = 0xF0B ∧ dst / 16 % 4096 = 0xF0B then
    (3#8, [BitVec.ofNat 8 src <<< 4 ||| BitVec.ofNat 8 dst &&& 0x0F#8])
  else if dst / 256 % 256 = 0xF0 then (1#8, udp.srcPort ++ [BitVec.ofNat 8 dst])
  else if src / 256 % 256 = 0xF0 then (2#8, [BitVec.ofNat 8 src] ++ udp.dstPort)
  else (0#8, udp.srcPort ++ udp.dstPort)

theorem compressNhUdp_eq (udp : UdpHdr) : compressNhUdp udp =
    [0xF0#8 ||| (portsForm udp).1] ++ ((portsForm udp).2 ++ udp.chksum) := by
  unfold compressNhUdp portsForm
  dsimp only
  split_ifs <;> simp

theorem portsForm_fst (udp : UdpHdr) : (portsForm udp).1 ∈ [0#8, 1#8, 2#8, 3#8] := by
  unfold portsForm
  dsimp only
  split_ifs <;> simp

theorem be16_low {b : List Byte} (h : b.length = 2) (hhigh : htons b / 256 % 256 = 0xF0) :
    be16 (0xF0 * 256 + (BitVec.ofNat 8 (htons b)).toNat) = b := by
  have hlt := htons_lt b
  rw [BitVec.toNat_ofNat, show 0xF0 * 256 + htons b % 2 ^ 8 = htons b by omega, be16_htons h]

theorem uncompressNhUdp_portsForm (hsrc : udp.srcPort.length = 2) (hdst : udp.dstPort.length = 2)
    (hmode : c.getD off 0 &&& 0x03#8 = (portsForm udp).1)
    (hat : HoldsAt c (off + 1) (portsForm udp).2) :
    uncompressNhUdp c off = ((udp.srcPort, udp.dstPort), off + 1 + (portsForm udp).2.length) := by
  have hslt := htons_lt udp.srcPort
  have hdlt := htons_lt udp.dstPort
  simp only [uncompressNhUdp, hmode]
  unfold portsForm at *
  by_cases h4 : htons udp.srcPort / 16 % 4096 = 0xF0B ∧ htons udp.dstPort / 16 % 4096 = 0xF0B
  · simp only [if_pos h4] at hat ⊢
    have hbits := toNat_nibbles (htons udp.srcPort) (htons udp.dstPort)
    have hlow : 15 % 2 ^ 8 = 2 ^ 4 - 1 := rfl
    rw [hat.getD_eq, BitVec.toNat_ushiftRight, BitVec.toNat_and, BitVec.toNat_ofNat, hlow,
      Nat.and_two_pow_sub_one_eq_mod, Nat.shiftRight_eq_div_pow, hbits,
      show 0xF0B * 16 + (htons udp.srcPort % 16 * 16 + htons udp.dstPort % 16) / 2 ^ 4 =
        htons udp.srcPort by omega,
      show 0xF0B * 16 + (htons udp.srcPort % 16 * 16 + htons udp.dstPort % 16) % 2 ^ 4 =
        htons udp.dstPort by omega,
      be16_htons hsrc, be16_htons hdst]
    rfl
  by_cases hd8 : htons udp.dstPort / 256 % 256 = 0xF0
  · simp only [if_neg h4, if_pos hd8, holdsAt_append, hsrc] at hat ⊢
    have hread := hat.1.slice_eq
    rw [hsrc] at hread
    rw [if_neg (by decide), hat.2.getD_eq, be16_low hdst hd8, hread, length_append, hsrc]
    rfl
  by_cases hs8 : htons udp.srcPort / 256 % 256 = 0xF0
  · simp only [if_neg h4, if_neg hd8, if_pos hs8, holdsAt_append] at hat ⊢
    have hread := hat.2.slice_eq
    rw [hdst] at hread
    rw [if_neg (by decide), if_neg (by decide), hat.1.getD_eq, be16_low hsrc hs8, length_append,
      hdst]
    exact Prod.ext (Prod.ext rfl hread) rfl
  · simp only [if_neg h4, if_neg hd8, if_neg hs8, holdsAt_append, hsrc] at hat ⊢
    have hread := hat.1.slice_eq
    have hread' := hat.2.slice_eq
    rw [hsrc] at hread
    rw [hdst] at hread'
    rw [hread, length_append, hsrc, hdst]
    exact Prod.ext (Prod.ext rfl hread') rfl

theorem eq_ipv6Hdr_append (h : ipv6HLen ≤ b.length) : b = (ipv6Hdr b).bytes ++ b.drop 40 := by
  unfold ipv6HLen at h
  have hpair : ∀ i, i + 2 ≤ b.length → [b.getD i 0, b.getD (i + 1) 0] = slice b i 2 := by
    intro i hi
    rw [← slice_append b i 1 1, slice_one (by omega), slice_one (by omega)]
    rfl
  rw [Ipv6Hdr.bytes]
  simp only [ipv6Hdr]
  rw [hpair 0 (by omega), hpair 6 (by omega), slice_append b 8, slice_append b 6, slice_append b 4, slice_append b 2,
    slice_append b 0]
  exact (slice_append_drop b 0 40).symm

theorem drop_eq_udpHdr_append (b : Buf) : b.drop 40 = (udpHdr b).bytes ++ b.drop 48 := by
  rw [UdpHdr.bytes]
  simp only [udpHdr]
  rw [slice_append b 44, slice_append b 42, slice_append b 40]
  exact (slice_append_drop b 40 8).symm

structure Ipv6Hdr.Sized (ipv6 : Ipv6Hdr) : Prop where
  flow : ipv6.flow.length = 2
  len : ipv6.len.length = 2
  src : ipv6.src.length = 16
  dst : ipv6.dst.length = 16

structure UdpHdr.Sized (udp : UdpHdr) : Prop where
  srcPort : udp.srcPort.length = 2
  dstPort : udp.dstPort.length = 2
  len : udp.len.length = 2
  chksum : udp.chksum.length = 2

theorem ipv6Hdr_sized (h : ipv6HLen ≤ b.length) : (ipv6Hdr b).Sized := by
  unfold ipv6HLen at h
  exact ⟨slice_length (by omega), slice_length (by omega), slice_length (by omega),
    slice_length (by omega)⟩

theorem udpHdr_sized (h : ipv6UdpHLen ≤ b.length) : (udpHdr b).Sized := by
  unfold ipv6UdpHLen at h
  exact ⟨slice_length (by omega), slice_length (by omega), slice_length (by omega),
    slice_length (by omega)⟩

theorem uncompressNhUdp_compressNhUdp (h : udp.Sized) (hat : HoldsAt c off (compressNhUdp udp)) :
    c.getD off 0 &&& 0xF0#8 = 0xF0#8 ∧ c.getD off 0 &&& 0x08#8 = 0#8 ∧
      uncompressNhUdp c off = ((udp.srcPort, udp.dstPort), off + 1 + (portsForm udp).2.length) ∧
      slice c (off + 1 + (portsForm udp).2.length) 2 = udp.chksum := by
  rw [compressNhUdp_eq, holdsAt_append, holdsAt_append] at hat
  obtain ⟨hfirst, hports, hsum⟩ := hat
  have hbits : ∀ m ∈ [0#8, 1#8, 2#8, 3#8], (0xF0#8 ||| m) &&& 0xF0#8 = 0xF0#8 ∧
      (0xF0#8 ||| m) &&& 0x08#8 = 0#8 ∧ (0xF0#8 ||| m) &&& 0x03#8 = m := by decide
  obtain ⟨hbare, hchk, hmode⟩ := hbits _ (portsForm_fst udp)
  have hbyte : c.getD off 0 = _ := hfirst.getD_eq
  rw [← hbyte] at hbare hchk hmode
  refine ⟨hbare, hchk, uncompressNhUdp_portsForm h.srcPort h.dstPort hmode hports, ?_⟩
  have hread := hsum.slice_eq
  rwa [h.chksum] at hread

theorem Ipv6Hdr.Sized.length (h : ipv6.Sized) : ipv6.bytes.length = 40 := by
  simp [Ipv6Hdr.bytes, h.flow, h.len, h.src, h.dst]

theorem UdpHdr.Sized.length (h : udp.Sized) : udp.bytes.length = 8 := by
  simp [UdpHdr.bytes, h.srcPort, h.dstPort, h.len, h.chksum]

theorem Ipv6Hdr.Sized.writeAt_len (h : ipv6.Sized) {x : List Byte} (hx : x.length = 2) (t : Buf) :
    writeAt (ipv6.bytes ++ t) 4 x = { ipv6 with len := x }.bytes ++ t := by
  have hl : ([ipv6.vtc, ipv6.tcflow] ++ ipv6.flow).length = 4 := by simp [h.flow]
  have hwrite := writeAt_append (m := ipv6.len)
    (t := [ipv6.nexthdr, ipv6.hopLimit] ++ (ipv6.src ++ (ipv6.dst ++ t))) hl (hx.trans h.len.symm)
  simpa only [Ipv6Hdr.bytes, append_assoc] using hwrite

theorem UdpHdr.Sized.writeAt_len (h : udp.Sized) {hdr x : List Byte} (hhdr : hdr.length = 40)
    (hx : x.length = 2) (t : Buf) :
    writeAt (hdr ++ (udp.bytes ++ t)) 44 x = hdr ++ ({ udp with len := x }.bytes ++ t) := by
  have hl : (hdr ++ (udp.srcPort ++ udp.dstPort)).length = 44 := by
    simp [hhdr, h.srcPort, h.dstPort]
  have hwrite := writeAt_append (m := udp.len) (t := udp.chksum ++ t) hl (hx.trans h.len.symm)
  simpa only [UdpHdr.bytes, append_assoc] using hwrite

def headersWithLen (ipv6 : Ipv6Hdr) (udp : Option UdpHdr) (len : List Byte) : Buf :=
  { ipv6 with len }.bytes ++ udp.elim [] fun udp => { udp with len }.bytes

variable {rest : List Buf}

theorem finishHeaders_flatten {udp : Option UdpHdr} (h : ipv6.Sized) (hudp : ∀ u ∈ udp, u.Sized)
    (hsize : 40 + (udp.elim [] UdpHdr.bytes).length ≤ env.size)
    (hfits : ∀ f ∈ c :: rest, f.length ≤ env.size) (hoff : off ≤ c.length) :
    (finishHeaders env c rest off ipv6 udp false).map flatten = some (headersWithLen ipv6 udp
        (be16 ((udp.elim [] UdpHdr.bytes).length + (c.drop off ++ rest.flatten).length)) ++
        (c.drop off ++ rest.flatten)) := by
  have hne : ipv6.bytes ++ udp.elim [] UdpHdr.bytes ≠ [] := by simp [Ipv6Hdr.bytes]
  have hfits' : ∀ f ∈ (ipv6.bytes ++ udp.elim [] UdpHdr.bytes) :: c.drop off :: rest,
      f.length ≤ env.size := by
    simp only [forall_mem_cons, length_append, length_drop, h.length] at hfits ⊢
    exact ⟨hsize, by omega, hfits.2⟩
  obtain ⟨more, rest', hcomp, hflat⟩ := NetPkt.compact_cons hne hfits'
  rw [flatten_cons] at hflat
  have hlen :
      ((ipv6.bytes ++ udp.elim [] UdpHdr.bytes ++ more) :: rest').flatten.length - ipv6HLen =
        (udp.elim [] UdpHdr.bytes).length + (c.drop off ++ rest.flatten).length := by
    rw [flatten_cons, append_assoc, hflat, length_append, length_append, h.length, ipv6HLen]
    omega
  simp only [finishHeaders, if_neg (Nat.not_lt.mpr hoff), hcomp, hlen]
  generalize (udp.elim [] UdpHdr.bytes).length + (c.drop off ++ rest.flatten).length = n
  cases udp with
  | none =>
    have hwrite := h.writeAt_len (x := be16 n) rfl more
    simp [headersWithLen, hwrite, hflat]
  | some udp =>
    have hwrite := h.writeAt_len (x := be16 n) rfl (udp.bytes ++ more)
    have hhdr' : ({ ipv6 with len := be16 n } : Ipv6Hdr).Sized := { h with len := rfl }
    have hwrite' := (hudp udp rfl).writeAt_len hhdr'.length (x := be16 n) rfl more
    simp [headersWithLen, hwrite, hwrite', hflat]

/-- An IPv6 packet with traffic class and flow label zero: the headers are in the first buffer and
the length fields say how long the packet is. -/
structure WellFormed (env : Env) (frag : Buf) (rest : List Buf) : Prop where
  fits : ∀ f ∈ frag :: rest, f.length ≤ env.size
  headers : compressed frag ≤ frag.length
  vtc : (ipv6Hdr frag).vtc = 0x60#8
  tcflow : (ipv6Hdr frag).tcflow = 0#8
  flow : (ipv6Hdr frag).flow = [0#8, 0#8]
  len : htons (ipv6Hdr frag).len + 40 = (frag :: rest).flatten.length
  udpLen : (ipv6Hdr frag).nexthdr = ipprotoUdp →
    htons (udpHdr frag).len + 40 = (frag :: rest).flatten.length

def restoredIpv6 (env : Env) (frag : Buf) : Ipv6Hdr :=
  { ipv6Hdr frag with
    len := [0#8, 0#8]
    src := restoreSrc env (ipv6Hdr frag).src
    dst := restoreDst env (ipv6Hdr frag).dst }

def restoredUdp (frag : Buf) : Option UdpHdr :=
  if (ipv6Hdr frag).nexthdr = ipprotoUdp then some { udpHdr frag with len := [0#8, 0#8] } else none

variable {frag : Buf}

theorem compressTfl_of_zero (hvtc : ipv6.vtc = 0x60#8) (htc : ipv6.tcflow = 0#8)
    (hflow : ipv6.flow = [0#8, 0#8]) : compressTfl ipv6 = (0x18#8, []) := by
  simp [compressTfl, hvtc, htc, hflow]

section

variable (h : WellFormed env frag rest)

include h

theorem WellFormed.length : ipv6HLen ≤ frag.length := by
  have := h.headers
  unfold compressed ipv6UdpHLen at this
  unfold ipv6HLen at *
  split at this <;> omega

theorem WellFormed.udpSized (hnext : (ipv6Hdr frag).nexthdr = ipprotoUdp) : (udpHdr frag).Sized :=
  udpHdr_sized (by simpa [compressed, hnext] using h.headers)

theorem uncompressIphcHeader_iphcHeader (hc : iphcHeader env frag <+: c) (rest' : List Buf) :
    uncompressIphcHeader env (c :: rest') =
      finishHeaders env c rest' (iphcHeader env frag).length (restoredIpv6 env frag)
        (restoredUdp frag) false := by
  have hsized := ipv6Hdr_sized h.length
  have htfl := compressTfl_of_zero h.vtc h.tcflow h.flow
  have hat : HoldsAt c 0 (iphcHeader env frag) := hc
  simp only [iphcHeader, htfl, nil_append, holdsAt_append] at hat
  obtain ⟨hbytes, hnh, hhl, hsa, hda, hudp⟩ := hat
  obtain ⟨hb0, hb1⟩ := holdsAt_cons.mp hbytes
  -- what the masks find in the two header bytes
  obtain ⟨-, htf, hnhbit, hhlbit⟩ := firstByte_bits _ (compressNh_fst (ipv6Hdr frag)) _
    (compressHoplimit_fst (ipv6Hdr frag))
  obtain ⟨hcid, hsac, hsam, hm, hdac, hdam⟩ := secondByte_bits _
    (compressSa_fst env (ipv6Hdr frag)) _ (compressDa_fst env (ipv6Hdr frag))
  have e0 : c.getD 0 0 = _ := hb0.getD_eq
  have e1 : c.getD 1 0 = _ := hb1.getD_eq
  rw [← e0] at htf hnhbit hhlbit
  rw [← e1] at hcid hsac hsam hm hdac hdam
  have huntfl : uncompressTfl c 2 = ((0x60#8, 0#8, [0#8, 0#8]), 2) := by
    simp only [uncompressTfl, htf]
    rfl
  have hunnh : uncompressNh c 2 = _ := uncompressNh_compressNh hnhbit hnh
  have hunhl : uncompressHoplimit c (2 + (compressNh (ipv6Hdr frag)).2.length) = _ :=
    uncompressHoplimit_compressHoplimit hhlbit hhl
  have hunsa : uncompressSa env c (2 + (compressNh (ipv6Hdr frag)).2.length +
      (compressHoplimit (ipv6Hdr frag)).2.length) = _ :=
    uncompressSa_compressSa hsized.src hsac hsam hsa
  have hunda : uncompressDa env c (2 + (compressNh (ipv6Hdr frag)).2.length +
      (compressHoplimit (ipv6Hdr frag)).2.length + (compressSa env (ipv6Hdr frag)).2.length) = _ :=
    uncompressDa_compressDa hsized.dst hm hdac hdam hda
  have hhdr : ({ vtc := 0x60#8, tcflow := 0#8, flow := [0#8, 0#8], len := [0#8, 0#8]
                 nexthdr := (ipv6Hdr frag).nexthdr, hopLimit := (ipv6Hdr frag).hopLimit
                 src := restoreSrc env (ipv6Hdr frag).src
                 dst := restoreDst env (ipv6Hdr frag).dst } : Ipv6Hdr) = restoredIpv6 env frag := by
    rw [restoredIpv6, h.vtc, h.tcflow, h.flow]
  rw [uncompressIphcHeader, if_neg (by rw [hcid]; decide)]
  simp only [huntfl, hunnh, hunhl, hunsa, hunda, hnhbit]
  simp only [iphcHeader, htfl, length_append]
  by_cases hnext : (ipv6Hdr frag).nexthdr = ipprotoUdp
  · have hnh4 : ¬ (compressNh (ipv6Hdr frag)).1 = 0#8 := by simp [compressNh, hnext]
    have hudpSized := h.udpSized hnext
    rw [if_pos hnext] at hudp ⊢
    obtain ⟨hbare, hchk, hports, hsum⟩ := uncompressNhUdp_compressNhUdp hudpSized hudp
    rw [compressNhUdp_eq]
    have hudp' : restoredUdp frag = some { udpHdr frag with len := [0#8, 0#8] } := if_pos hnext
    simp only [length_cons, length_nil] at hbare hchk hports hsum
    simp only [hnh4, if_false, hbare, hchk, hports, hsum, hudp']
    rw [if_neg (by decide), if_pos trivial]
    congr 1
    simp only [length_append, length_cons, length_nil, hudpSized.chksum]
    omega
  · have hnh0 : (compressNh (ipv6Hdr frag)).1 = 0x00#8 := by rw [compressNh, if_neg hnext]
    have hudp' : restoredUdp frag = none := if_neg hnext
    rw [if_pos hnh0, if_neg hnext, hudp']
    congr 1
    simp only [length_cons, length_nil]
    omega

def restored (env : Env) (frag : Buf) : Buf :=
  { ipv6Hdr frag with
    src := restoreSrc env (ipv6Hdr frag).src
    dst := restoreDst env (ipv6Hdr frag).dst }.bytes ++ frag.drop 40

theorem headersWithLen_restored : headersWithLen (restoredIpv6 env frag) (restoredUdp frag)
      (be16 ((frag :: rest).flatten.length - 40)) ++ frag.drop (compressed frag) =
        restored env frag := by
  have hsized := ipv6Hdr_sized h.length
  have hlen : be16 ((frag :: rest).flatten.length - 40) = (ipv6Hdr frag).len := by
    rw [← h.len, Nat.add_sub_cancel, be16_htons hsized.len]
  unfold headersWithLen restored restoredUdp compressed
  by_cases hnext : (ipv6Hdr frag).nexthdr = ipprotoUdp
  · have hudpSized := h.udpSized hnext
    have hudpHdr : { udpHdr frag with len := be16 ((frag :: rest).flatten.length - 40) } =
        udpHdr frag := by
      rw [← h.udpLen hnext, Nat.add_sub_cancel, be16_htons hudpSized.len]
    rw [if_pos hnext, if_pos hnext, drop_eq_udpHdr_append, elim_some, hudpHdr, hlen, append_assoc]
    rfl
  · rw [if_neg hnext, if_neg hnext, hlen]
    simp [restoredIpv6, ipv6HLen]

end

theorem compressSa_length (env : Env) (h : ipv6.Sized) : (compressSa env ipv6).2.length ≤ 16 := by
  have hsrc := h.src
  have h2 : (slice ipv6.src 14 2).length = 2 := slice_length (by omega)
  have h8 : (slice ipv6.src 8 8).length = 8 := slice_length (by omega)
  unfold compressSa
  split_ifs <;> simp [h2, h8, h.src]

theorem compressDa_length (env : Env) (h : ipv6.Sized) : (compressDa env ipv6).2.length ≤ 16 := by
  have hdst := h.dst
  have hslice : ∀ off n, off + n ≤ 16 → (slice ipv6.dst off n).length = n := fun off n hle =>
    slice_length (by omega)
  unfold compressDa compressDaMcast
  split_ifs <;> simp [hslice, hdst]

theorem compressNhUdp_length (h : udp.Sized) : (compressNhUdp udp).length ≤ 7 := by
  unfold compressNhUdp
  dsimp only
  split_ifs <;> simp [h.srcPort, h.dstPort, h.chksum]

section

variable (h : WellFormed env frag rest)
include h

theorem iphcHeader_length_le : (iphcHeader env frag).length ≤ compressed frag := by
  have hsized := ipv6Hdr_sized h.length
  have hsa := compressSa_length env hsized
  have hda := compressDa_length env hsized
  have hhl : (compressHoplimit (ipv6Hdr frag)).2.length ≤ 1 := by
    unfold compressHoplimit
    split_ifs <;> simp
  simp only [iphcHeader, compressTfl_of_zero h.vtc h.tcflow h.flow, length_append, length_cons]
  unfold compressed compressNh ipv6HLen ipv6UdpHLen
  by_cases hnext : (ipv6Hdr frag).nexthdr = ipprotoUdp
  · have hudp := compressNhUdp_length (h.udpSized hnext)
    simp only [if_pos hnext, length_nil]
    omega
  · simp only [if_neg hnext, length_cons, length_nil]
    omega

theorem iphcHeader_dispatch (hc : iphcHeader env frag <+: c) :
    c.getD 0 0 &&& dispatchIphc = dispatchIphc := by
  have hat : HoldsAt c 0 (iphcHeader env frag) := hc
  simp only [iphcHeader, compressTfl_of_zero h.vtc h.tcflow h.flow] at hat
  rw [(holdsAt_cons.mp hat).1.getD_eq]
  exact (firstByte_bits _ (compressNh_fst (ipv6Hdr frag)) _ (compressHoplimit_fst (ipv6Hdr frag))).1

theorem restoredIpv6_sized : (restoredIpv6 env frag).Sized :=
  have hsized := ipv6Hdr_sized h.length
  ⟨hsized.flow, rfl, restoreUnicast_length hsized.src, restoreDst_length hsized.dst⟩

theorem restoredUdp_sized : ∀ u ∈ restoredUdp frag, u.Sized := by
  intro u hu
  unfold restoredUdp at hu
  split at hu
  · next hnext =>
    cases hu
    exact { h.udpSized hnext with len := rfl }
  · exact nomatch hu

theorem compressed_eq :
    compressed frag = 40 + ((restoredUdp frag).elim [] UdpHdr.bytes).length := by
  have hsized := restoredUdp_sized h
  unfold compressed restoredUdp at *
  split_ifs at hsized ⊢
  · rw [elim_some, (hsized _ rfl).length]
    rfl
  · rfl

theorem uncompress_compressIphcHeader :
    ∃ frags diff, compressIphcHeader env (frag :: rest) = some (frags, diff) ∧
      diff = ((frag :: rest).flatten.length : Int) - frags.flatten.length ∧
      (net6loUncompress env frags).map flatten = some (restored env frag ++ rest.flatten) := by
  have hle := iphcHeader_length_le h
  have hk := h.headers
  obtain ⟨hfrag, hrest⟩ := forall_mem_cons.mp h.fits
  have hne : iphcHeader env frag ++ frag.drop (compressed frag) ≠ [] := by simp [iphcHeader]
  have hfits : ∀ f ∈ (iphcHeader env frag ++ frag.drop (compressed frag)) :: rest,
      f.length ≤ env.size := by
    refine forall_mem_cons.mpr ⟨?_, hrest⟩
    rw [length_append, length_drop]
    omega
  have hsize : 0 < env.size := by
    have := h.length
    unfold ipv6HLen at this
    omega
  have hcompacted := (NetPkt.compacted_compact hsize hfits).length_le
  obtain ⟨more, rest', hcomp, hflat⟩ := NetPkt.compact_cons hne hfits
  rw [hcomp] at hcompacted
  refine ⟨_, _, by rw [compressIphcHeader, if_neg (Nat.not_lt.mpr hk)], ?_, ?_⟩
  · have hlen := congrArg length hflat
    simp only [hcomp, flatten_cons, length_append, length_drop] at hlen ⊢
    omega
  · have hpre : iphcHeader env frag <+:
        iphcHeader env frag ++ frag.drop (compressed frag) ++ more :=
      ⟨_, (append_assoc ..).symm⟩
    have htail : (iphcHeader env frag ++ frag.drop (compressed frag) ++ more).drop
        (iphcHeader env frag).length ++ rest'.flatten =
          frag.drop (compressed frag) ++ rest.flatten := by
      rw [append_assoc, drop_left, append_assoc, hflat]
    have hudp := compressed_eq h
    have hlen : ((restoredUdp frag).elim [] UdpHdr.bytes).length +
        (frag.drop (compressed frag) ++ rest.flatten).length =
          (frag :: rest).flatten.length - 40 := by
      simp only [flatten_cons, length_append, length_drop]
      omega
    simp only [hcomp, net6loUncompress, headD_cons, if_pos (iphcHeader_dispatch h hpre)]
    rw [uncompressIphcHeader_iphcHeader h hpre, finishHeaders_flatten (restoredIpv6_sized h)
      (restoredUdp_sized h) (by omega) hcompacted hpre.length_le, htail, hlen,
      ← headersWithLen_restored h, append_assoc]

theorem restored_eq_iff : restored env frag = frag ↔ AddrsExact env (ipv6Hdr frag) := by
  have hsized := ipv6Hdr_sized h.length
  have hlen : (restoreSrc env (ipv6Hdr frag).src).length = (ipv6Hdr frag).src.length :=
    (restoreUnicast_length hsized.src).trans hsized.src.symm
  have hsplit : restored env frag = frag ↔
      restored env frag = (ipv6Hdr frag).bytes ++ frag.drop 40 := by
    rw [← eq_ipv6Hdr_append h.length]
  rw [hsplit, restored, append_left_inj, AddrsExact, ← restoreUnicast_eq_iff hsized.src,
    ← restoreDst_eq_iff hsized.dst]
  simp only [Ipv6Hdr.bytes, append_right_inj]
  constructor
  · intro heq
    exact append_inj heq hlen
  · rintro ⟨hsrc, hdst⟩
    rw [restoreSrc, hsrc, hdst]

theorem uncompress_compressIpv6Header :
    ∃ frags, compressIpv6Header env (frag :: rest) = some (frags, -1) ∧
      frags.flatten.length = (frag :: rest).flatten.length + 1 ∧
      (net6loUncompress env frags).map flatten = some (frag :: rest).flatten := by
  have hsize : 1 ≤ env.size := by
    have := h.length
    have := h.fits frag mem_cons_self
    unfold ipv6HLen at *
    omega
  obtain ⟨_, _, hcomp, hflat⟩ := NetPkt.compact_cons (cons_ne_nil dispatchIpv6 [])
    (forall_mem_cons.mpr ⟨hsize, h.fits⟩)
  refine ⟨_, rfl, ?_, ?_⟩
  · rw [hcomp, flatten_cons, append_assoc, hflat]
    simp
  · rw [hcomp]
    simpa [net6loUncompress, dispatchIphc, dispatchIpv6] using hflat

end

/-- Header compression followed by uncompression gives back the packet exactly if the addresses that
are not carried in full have in every byte what uncompression puts there. -/
theorem roundTrip_iff (h : WellFormed env frag rest) (iphc : Bool) :
    ∃ frags diff, net6loCompress env iphc (frag :: rest) = some (frags, diff) ∧
      diff = ((frag :: rest).flatten.length : Int) - frags.flatten.length ∧
      ((net6loUncompress env frags).map flatten = some (frag :: rest).flatten ↔
        (iphc = true → AddrsExact env (ipv6Hdr frag))) := by
  cases iphc with
  | false =>
    obtain ⟨frags, hcomp, hlen, hback⟩ := uncompress_compressIpv6Header h
    exact ⟨frags, -1, hcomp, by omega, by simp [hback]⟩
  | true =>
    obtain ⟨frags, diff, hcomp, hdiff, hback⟩ := uncompress_compressIphcHeader h
    refine ⟨frags, diff, hcomp, hdiff, ?_⟩
    rw [hback, some_inj, flatten_cons, append_left_inj, restored_eq_iff h]
    simp

def extendedEnv : Env where
  size := 64
  zep1656 := false
  calcChksumUdp := fun _ => 0
  llSrc := ⟨.ieee802154, [0x02#8, 0x00#8, 0x5E#8, 0x10#8, 0x20#8, 0x30#8, 0x40#8, 0x50#8]⟩
  llDst := ⟨.ieee802154, [0x02#8, 0x00#8, 0x5E#8, 0x10#8, 0x20#8, 0x30#8, 0x40#8, 0x51#8]⟩

def udpFrag : Buf :=
  [0x60#8, 0#8, 0#8, 0#8, 0#8, 10#8, 17#8, 64#8,
    0xFE#8, 0x80#8, 0#8, 0#8, 0#8, 0#8, 0#8, 0#8,
    0x00#8, 0x00#8, 0x5E#8, 0x10#8, 0x20#8, 0x30#8, 0x40#8, 0x50#8,
    0xFF#8, 0x02#8, 0#8, 0#8, 0#8, 0#8, 0#8, 0#8, 0#8, 0#8, 0#8, 0#8, 0#8, 0#8, 0#8, 0x01#8,
    0xF0#8, 0xB1#8, 0x12#8, 0x34#8, 0#8, 10#8, 0xAB#8, 0xCD#8]

theorem udpFrag_wellFormed : WellFormed extendedEnv udpFrag [[7#8, 8#8]] where
  fits := by decide
  headers := by decide
  vtc := rfl
  tcflow := rfl
  flow := rfl
  len := rfl
  udpLen := fun _ => rfl

theorem roundTrip_udpFrag : ∃ frags diff,
    net6loCompress extendedEnv true [udpFrag, [7#8, 8#8]] = some (frags, diff) ∧
      diff = 50 - frags.flatten.length ∧
      (net6loUncompress extendedEnv frags).map flatten = some (udpFrag ++ [7#8, 8#8]) := by
  obtain ⟨frags, diff, hcomp, hdiff, hiff⟩ := roundTrip_iff udpFrag_wellFormed true
  refine ⟨frags, diff, hcomp, hdiff, hiff.mpr fun _ => ⟨?_, ?_⟩⟩
  · exact fun _ => ⟨by decide, by decide⟩
  · rfl

def shortEnv : Env := { extendedEnv with llSrc := ⟨.ieee802154, [0x12#8, 0x34#8]⟩ }

def shortFrag : Buf :=
  [0x60#8, 0#8, 0#8, 0#8, 0#8, 0#8, 59#8, 64#8,
    0xFE#8, 0x80#8, 0#8, 0#8, 0#8, 0#8, 0#8, 0#8,
    0#8, 0#8, 0#8, 0xFF#8, 0xFE#8, 0x01#8, 0x12#8, 0x34#8,
    0x20#8, 0x01#8, 0#8, 0#8, 0#8, 0#8, 0#8, 0#8, 0#8, 0#8, 0#8, 0#8, 0#8, 0#8, 0#8, 0x01#8]

/-- The address is elided since the byte 13 is not looked at, and comes back with a 0 there. -/
theorem elided_address_changed : WellFormed shortEnv shortFrag [] ∧
    ((net6loCompress shortEnv true [shortFrag]).bind fun p => net6loUncompress shortEnv p.1) =
      some [shortFrag.set 21 0#8] ∧
    shortFrag.set 21 0#8 ≠ shortFrag := by
  refine ⟨⟨by decide, by decide, rfl, rfl, rfl, rfl, ?_⟩, by decide, by decide⟩
  exact fun hnext => absurd hnext (by decide)

theorem rotated_back : ∀ t : Byte,
    (t <<< 6 ||| t >>> 2) >>> 6 ||| (t <<< 6 ||| t >>> 2) <<< 2 = t := by
  decide

theorem class_nibbles (vtc tcflow : Byte) :
    let tcl := (vtc &&& 0x0F#8) <<< 4 ||| (tcflow &&& 0xF0#8) >>> 4
    (tcl &&& 0xF0#8) >>> 4 = vtc &&& 0x0F#8 ∧ (tcl &&& 0x0F#8) <<< 4 = tcflow &&& 0xF0#8 := by
  constructor <;> ext i hi <;> interval_cases i <;> simp

theorem byte_nibbles (b : Byte) : b &&& 0xF0#8 ||| b &&& 0x0F#8 = b := by
  ext i hi
  interval_cases i <;> simp

theorem ecn_restored (tcflow : Byte) :
    let tcl := (tcflow &&& 0xF0#8) >>> 4
    let b := (tcl <<< 6 ||| tcl >>> 2) &&& 0xC0#8 ||| tcflow &&& 0x0F#8
    ((b &&& 0xF0#8) >>> 6 &&& 0x0F#8) <<< 4 ||| b &&& 0x0F#8 = tcflow &&& 0x3F#8 := by
  ext i hi
  interval_cases i <;> simp

theorem and_eq_self_iff : ∀ b : Byte, b &&& 0x3F#8 = b ↔ b &&& 0xC0#8 = 0#8 := by
  decide

/-- The traffic class and the flow label come back unless only the lower two bits of the DSCP are
set and neither the ECN nor the label is zero. -/
theorem tfl_restored_iff (hver : ipv6.vtc &&& 0xF0#8 = 0x60#8) (hlen : ipv6.flow.length = 2)
    (hbits : c.getD 0 0 &&& 0x18#8 = (compressTfl ipv6).1)
    (hat : HoldsAt c off (compressTfl ipv6).2) :
    (uncompressTfl c off).2 = off + (compressTfl ipv6).2.length ∧
      ((uncompressTfl c off).1 = (ipv6.vtc, ipv6.tcflow, ipv6.flow) ↔
        ¬ (¬ (ipv6.tcflow &&& 0x0F#8 = 0#8 ∧ ipv6.flow = [0#8, 0#8]) ∧ ipv6.vtc &&& 0x0F#8 = 0#8 ∧
          ipv6.tcflow &&& 0x30#8 ≠ 0#8 ∧ ipv6.tcflow &&& 0xC0#8 ≠ 0#8)) := by
  have hvtc := byte_nibbles ipv6.vtc
  have htcflow := byte_nibbles ipv6.tcflow
  obtain ⟨hhigh, hlow⟩ := class_nibbles ipv6.vtc ipv6.tcflow
  rw [hver] at hvtc
  simp only [uncompressTfl, hbits]
  unfold compressTfl at *
  by_cases hlabel : ipv6.tcflow &&& 0x0F#8 = 0#8 ∧ ipv6.flow = [0#8, 0#8]
  · by_cases hclass : ipv6.vtc &&& 0x0F#8 = 0#8 ∧ ipv6.tcflow &&& 0xF0#8 = 0#8
    · rw [hclass.1] at hvtc
      rw [hclass.2, hlabel.1] at htcflow
      rw [← hvtc, ← htcflow, hlabel.2]
      simp
    · simp only [if_pos hlabel, if_neg hclass] at hat ⊢
      rw [hat.getD_eq, rotated_back, hhigh, hlow, hvtc]
      rw [hlabel.1, BitVec.or_zero] at htcflow
      rw [htcflow]
      simp [hlabel]
  · by_cases hecn : ipv6.vtc &&& 0x0F#8 = 0#8 ∧ ipv6.tcflow &&& 0x30#8 ≠ 0#8
    · simp only [if_neg hlabel, if_pos hecn] at hat ⊢
      obtain ⟨hb, hf⟩ := holdsAt_cons.mp hat
      have hread := hf.slice_eq
      rw [hlen] at hread
      have hzero : (0#8 : Byte) <<< 4 = 0#8 := rfl
      rw [hb.getD_eq, hread, hecn.1, hzero, BitVec.zero_or, ecn_restored]
      rw [hecn.1] at hvtc
      simp [hlabel, hecn, hlen, ← hvtc, and_eq_self_iff]
    · simp only [if_neg hlabel, if_neg hecn] at hat ⊢
      obtain ⟨hb, hf⟩ := holdsAt_cons.mp hat
      obtain ⟨hb', hf⟩ := holdsAt_cons.mp hf
      have hread := hf.slice_eq
      rw [hlen] at hread
      rw [hb.getD_eq, hb'.getD_eq, hread, rotated_back, hhigh, hlow, hvtc]
      have hkept : ∀ b : Byte, b &&& 0x0F#8 &&& 0x0F#8 = b &&& 0x0F#8 := by decide
      rw [hkept, htcflow]
      simp only [hlen, length_cons]
      tauto

theorem tfl_restored_three : (uncompressTfl [0x60#8, 0#8, 0xC8#8, 0x05#8, 1#8, 2#8] 2).1 =
    (0x62#8, 0x35#8, [1#8, 2#8]) := by
  refine ((@tfl_restored_iff _ _ (ipv6Hdr [0x62#8, 0x35#8, 1#8, 2#8]) ?_ ?_ ?_ ?_).2).mpr ?_
  · rfl
  · rfl
  · rfl
  · exact ⟨[], rfl⟩
  · decide

theorem dscp_lost : compressTfl (ipv6Hdr [0x60#8, 0x51#8, 0#8, 0#8]) =
      (0x08#8, [0x41#8, 0#8, 0#8]) ∧
    uncompressTfl [0x68#8, 0#8, 0x41#8, 0#8, 0#8] 2 = ((0x60#8, 0x11#8, [0#8, 0#8]), 5) := by
  decide

end Zephyr.SixLo
