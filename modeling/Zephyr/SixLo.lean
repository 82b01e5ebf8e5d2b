import Zephyr.NetPkt
import Zephyr.Slices

/-! Header compression for IPv6 over low power networks: `net_6lo_compress` and
`net_6lo_uncompress`, without the context tables. A packet is the chain of its buffers. -/

namespace Zephyr.SixLo

open List

abbrev Byte := BitVec 8
abbrev Buf := List Byte

inductive LinkType where
  | ieee802154
  | bluetooth
  | ethernet
  | other
  deriving DecidableEq

structure LinkAddr where
  type : LinkType
  addr : List Byte

/-- The room in a data buffer, `CONFIG_NET_L2_BT_ZEP1656`, what `net_calc_chksum_udp` gives for a
packet, and the link-layer addresses of the packet. -/
structure Env where
  size : Nat
  zep1656 : Bool
  calcChksumUdp : List Buf → BitVec 16
  llSrc : LinkAddr
  llDst : LinkAddr

def ipv6HLen : Nat := 40
def ipv6UdpHLen : Nat := 48
def ipprotoUdp : Byte := 17#8
def dispatchIpv6 : Byte := 0x41#8
def dispatchIphc : Byte := 0x60#8

def be16 (n : Nat) : List Byte := [BitVec.ofNat 8 (n / 256), BitVec.ofNat 8 n]

def htons (b : List Byte) : Nat := (b.getD 0 0).toNat * 256 + (b.getD 1 0).toNat

structure Ipv6Hdr where
  vtc : Byte
  tcflow : Byte
  flow : List Byte
  len : List Byte
  nexthdr : Byte
  hopLimit : Byte
  src : List Byte
  dst : List Byte

def ipv6Hdr (b : Buf) : Ipv6Hdr where
  vtc := b.getD 0 0
  tcflow := b.getD 1 0
  flow := slice b 2 2
  len := slice b 4 2
  nexthdr := b.getD 6 0
  hopLimit := b.getD 7 0
  src := slice b 8 16
  dst := slice b 24 16

variable (env : Env) (c : Buf) (off : Nat) (ipv6 : Ipv6Hdr)

def Ipv6Hdr.bytes : Buf :=
  [ipv6.vtc, ipv6.tcflow] ++ (ipv6.flow ++ (ipv6.len ++ ([ipv6.nexthdr, ipv6.hopLimit] ++
    (ipv6.src ++ ipv6.dst))))

structure UdpHdr where
  srcPort : List Byte
  dstPort : List Byte
  len : List Byte
  chksum : List Byte

def udpHdr (b : Buf) : UdpHdr where
  srcPort := slice b 40 2
  dstPort := slice b 42 2
  len := slice b 44 2
  chksum := slice b 46 2

def UdpHdr.bytes (udp : UdpHdr) : Buf :=
  udp.srcPort ++ (udp.dstPort ++ (udp.len ++ udp.chksum))

variable (addr : List Byte)

def isAddrUnspecified : Bool := addr == replicate 16 0#8

def isAddrMcast : Bool := addr.getD 0 0 == 0xFF#8

def isLlAddr : Bool := slice addr 0 2 == [0xFE#8, 0x80#8]

def llPrefixPaddedWithZeros : Bool :=
  slice addr 2 2 == [0#8, 0#8] && slice addr 4 4 == [0#8, 0#8, 0#8, 0#8]

def addr16BitCompressible : Bool :=
  slice addr 8 4 == [0#8, 0#8, 0#8, 0xFF#8] && slice addr 12 2 == [0xFE#8, 0#8]

def maddr8BitCompressible : Bool :=
  addr.getD 1 0 == 0x02#8 && slice addr 2 2 == [0#8, 0#8] &&
    slice addr 4 4 == [0#8, 0#8, 0#8, 0#8] && slice addr 8 4 == [0#8, 0#8, 0#8, 0#8] &&
    addr.getD 14 0 == 0#8

def maddr32BitCompressible : Bool :=
  slice addr 4 4 == [0#8, 0#8, 0#8, 0#8] && slice addr 8 4 == [0#8, 0#8, 0#8, 0#8] &&
    addr.getD 12 0 == 0#8

def maddr48BitCompressible : Bool :=
  slice addr 4 4 == [0#8, 0#8, 0#8, 0#8] && slice addr 8 2 == [0#8, 0#8] &&
    addr.getD 10 0 == 0#8

/-- The first byte of an address with the universal bit toggled where `b` says so. -/
def toggled (b : Bool) (a : Byte) : Byte := if b then a ^^^ 0x02#8 else a

def addrCreateIid (zep1656 : Bool) (ll : LinkAddr) : List Byte :=
  [0xFE#8, 0x80#8, 0#8, 0#8, 0#8, 0#8, 0#8, 0#8] ++
    match ll.addr with
    | [a, b] =>
      if ll.type = .ieee802154 then [0#8, 0#8, 0#8, 0xFF#8, 0xFE#8, 0#8, a, b]
      else replicate 8 0#8
    | [a, b, c, d, e, f] =>
      [toggled (ll.type = .ethernet ∨ ll.type = .bluetooth ∧ zep1656) a, b, c, 0xFF#8, 0xFE#8,
        d, e, f]
    | [a, b, c, d, e, f, g, h] => [toggled true a, b, c, d, e, f, g, h]
    | _ => replicate 8 0#8

def addrBasedOnLl (zep1656 : Bool) (addr : List Byte) (ll : LinkAddr) : Bool :=
  match ll.addr with
  | [a, b] =>
    slice addr 14 2 == [a, b] && slice addr 8 3 == [0#8, 0#8, 0#8] &&
      slice addr 11 2 == [0xFF#8, 0xFE#8]
  | [a, b, c, d, e, f] =>
    match ll.type with
    | .ethernet =>
      slice addr 9 2 == [b, c] && slice addr 13 3 == [d, e, f] &&
        slice addr 11 2 == [0xFF#8, 0xFE#8] && addr.getD 8 0 ^^^ 0x02#8 == a
    | .bluetooth =>
      slice addr 9 2 == [b, c] && slice addr 13 3 == [d, e, f] &&
        slice addr 11 2 == [0xFF#8, 0xFE#8] && (!zep1656 || addr.getD 8 0 ^^^ 0x02#8 == a)
    | _ => false
  | [a, b, c, d, e, f, g, h] =>
    slice addr 9 7 == [b, c, d, e, f, g, h] && addr.getD 8 0 ^^^ 0x02#8 == a
  | _ => false

/-! ### Compression

Each helper gives its bits of the two header bytes and the bytes that it puts in line. -/

def compressTfl : Byte × List Byte :=
  let tcl := (ipv6.vtc &&& 0x0F#8) <<< 4 ||| (ipv6.tcflow &&& 0xF0#8) >>> 4
  let tcl := tcl <<< 6 ||| tcl >>> 2
  if ipv6.tcflow &&& 0x0F#8 = 0#8 ∧ ipv6.flow = [0#8, 0#8] then
    if ipv6.vtc &&& 0x0F#8 = 0#8 ∧ ipv6.tcflow &&& 0xF0#8 = 0#8 then (0x18#8, [])
    else (0x10#8, [tcl])
  else if ipv6.vtc &&& 0x0F#8 = 0#8 ∧ ipv6.tcflow &&& 0x30#8 ≠ 0#8 then
    (0x08#8, (tcl &&& 0xC0#8 ||| ipv6.tcflow &&& 0x0F#8) :: ipv6.flow)
  else (0x00#8, tcl :: (ipv6.tcflow &&& 0x0F#8) :: ipv6.flow)

def compressNh : Byte × List Byte :=
  if ipv6.nexthdr = ipprotoUdp then (0x04#8, []) else (0x00#8, [ipv6.nexthdr])

def compressHoplimit : Byte × List Byte :=
  if ipv6.hopLimit = 1#8 then (0x01#8, [])
  else if ipv6.hopLimit = 64#8 then (0x02#8, [])
  else if ipv6.hopLimit = 255#8 then (0x03#8, [])
  else (0x00#8, [ipv6.hopLimit])

def compressSa : Byte × List Byte :=
  if isAddrUnspecified ipv6.src then (0x40#8, [])
  else if isLlAddr ipv6.src && llPrefixPaddedWithZeros ipv6.src then
    if addr16BitCompressible ipv6.src then (0x20#8, slice ipv6.src 14 2)
    else if addrBasedOnLl env.zep1656 ipv6.src env.llSrc then (0x30#8, [])
    else (0x10#8, slice ipv6.src 8 8)
  else (0x00#8, ipv6.src)

def compressDaMcast : Byte × List Byte :=
  if maddr8BitCompressible ipv6.dst then (0x0B#8, slice ipv6.dst 15 1)
  else if maddr32BitCompressible ipv6.dst then (0x0A#8, slice ipv6.dst 1 1 ++ slice ipv6.dst 13 3)
  else if maddr48BitCompressible ipv6.dst then (0x09#8, slice ipv6.dst 1 1 ++ slice ipv6.dst 11 5)
  else (0x08#8, ipv6.dst)

def compressDa : Byte × List Byte :=
  if isAddrMcast ipv6.dst then compressDaMcast ipv6
  else if isLlAddr ipv6.dst && llPrefixPaddedWithZeros ipv6.dst then
    if addr16BitCompressible ipv6.dst then (0x02#8, slice ipv6.dst 14 2)
    else if addrBasedOnLl env.zep1656 ipv6.dst env.llDst then (0x03#8, [])
    else (0x01#8, slice ipv6.dst 8 8)
  else (0x00#8, ipv6.dst)

def compressNhUdp (udp : UdpHdr) : List Byte :=
  let src := htons udp.srcPort
  let dst := htons udp.dstPort
  (if src / 16 % 4096 = 0xF0B ∧ dst / 16 % 4096 = 0xF0B then
    [0xF3#8, BitVec.ofNat 8 src <<< 4 ||| BitVec.ofNat 8 dst &&& 0x0F#8]
  else if dst / 256 % 256 = 0xF0 then 0xF1#8 :: (udp.srcPort ++ [BitVec.ofNat 8 dst])
  else if src / 256 % 256 = 0xF0 then 0xF2#8 :: BitVec.ofNat 8 src :: udp.dstPort
  else 0xF0#8 :: (udp.srcPort ++ udp.dstPort)) ++ udp.chksum

def iphcHeader (frag : Buf) : List Byte :=
  let ipv6 := ipv6Hdr frag
  let tfl := compressTfl ipv6
  let nh := compressNh ipv6
  let hl := compressHoplimit ipv6
  let sa := compressSa env ipv6
  let da := compressDa env ipv6
  [dispatchIphc ||| tfl.1 ||| nh.1 ||| hl.1, sa.1 ||| da.1] ++ (tfl.2 ++ (nh.2 ++ (hl.2 ++
    (sa.2 ++ (da.2 ++ if ipv6.nexthdr = ipprotoUdp then compressNhUdp (udpHdr frag) else [])))))

def compressed (frag : Buf) : Nat :=
  if (ipv6Hdr frag).nexthdr = ipprotoUdp then ipv6UdpHLen else ipv6HLen

def compressIphcHeader : List Buf → Option (List Buf × Int)
  | [] => none
  | frag :: rest =>
    if frag.length < compressed frag then none
    else
      let iphc := iphcHeader env frag
      some (NetPkt.compact env.size ((iphc ++ frag.drop (compressed frag)) :: rest),
        (compressed frag : Int) - iphc.length)

def compressIpv6Header (frags : List Buf) : Option (List Buf × Int) :=
  some (NetPkt.compact env.size ([dispatchIpv6] :: frags), -1)

def net6loCompress (iphc : Bool) (frags : List Buf) : Option (List Buf × Int) :=
  if iphc then compressIphcHeader env frags else compressIpv6Header env frags

/-! ### Uncompression

Each helper reads the first buffer from an offset on and gives the offset behind what it read. -/

def uncompressTfl : (Byte × Byte × List Byte) × Nat :=
  let tf := c.getD 0 0 &&& 0x18#8
  let first := c.getD off 0
  if tf = 0x00#8 then
    let tcl := first >>> 6 ||| first <<< 2
    ((0x60#8 ||| (tcl &&& 0xF0#8) >>> 4,
      (tcl &&& 0x0F#8) <<< 4 ||| c.getD (off + 1) 0 &&& 0x0F#8, slice c (off + 2) 2), off + 4)
  else if tf = 0x08#8 then
    let tcl := (first &&& 0xF0#8) >>> 6
    ((0x60#8, (tcl &&& 0x0F#8) <<< 4 ||| first &&& 0x0F#8, slice c (off + 1) 2), off + 3)
  else if tf = 0x10#8 then
    let tcl := first >>> 6 ||| first <<< 2
    ((0x60#8 ||| (tcl &&& 0xF0#8) >>> 4, (tcl &&& 0x0F#8) <<< 4, [0#8, 0#8]), off + 1)
  else ((0x60#8, 0#8, [0#8, 0#8]), off)

def uncompressNh : Byte × Nat :=
  if c.getD 0 0 &&& 0x04#8 = 0#8 then (c.getD off 0, off + 1) else (ipprotoUdp, off)

def uncompressHoplimit : Byte × Nat :=
  let hlim := c.getD 0 0 &&& 0x03#8
  if hlim = 0x00#8 then (c.getD off 0, off + 1)
  else if hlim = 0x01#8 then (1#8, off)
  else if hlim = 0x02#8 then (64#8, off)
  else (255#8, off)

def uncompressUnicast (zep1656 : Bool) (ll : LinkAddr) (c : Buf) (mode : Byte) (off : Nat) :
    List Byte × Nat :=
  if mode = 0#8 then (slice c off 16, off + 16)
  else if mode = 1#8 then
    ([0xFE#8, 0x80#8, 0#8, 0#8, 0#8, 0#8, 0#8, 0#8] ++ slice c off 8, off + 8)
  else if mode = 2#8 then
    ([0xFE#8, 0x80#8, 0#8, 0#8, 0#8, 0#8, 0#8, 0#8, 0#8, 0#8, 0#8, 0xFF#8, 0xFE#8, 0#8] ++
      slice c off 2, off + 2)
  else (addrCreateIid zep1656 ll, off)

def uncompressSa : Option (List Byte × Nat) :=
  let mode := c.getD 1 0 &&& 0x30#8
  if c.getD 1 0 &&& 0x40#8 ≠ 0#8 then
    if mode = 0#8 then some (replicate 16 0#8, off) else none
  else some (uncompressUnicast env.zep1656 env.llSrc c (mode >>> 4) off)

def uncompressDaMcast : List Byte × Nat :=
  let mode := c.getD 1 0 &&& 0x03#8
  -- the caller goes on with the offset 0
  if c.getD 1 0 &&& 0x04#8 ≠ 0#8 then (replicate 16 0#8, 0)
  else if mode = 0#8 then (slice c off 16, off + 16)
  else if mode = 1#8 then
    (0xFF#8 :: c.getD off 0 :: replicate 9 0#8 ++ slice c (off + 1) 5, off + 6)
  else if mode = 2#8 then
    (0xFF#8 :: c.getD off 0 :: replicate 11 0#8 ++ slice c (off + 1) 3, off + 4)
  else (0xFF#8 :: 0x02#8 :: replicate 13 0#8 ++ [c.getD off 0], off + 1)

def uncompressDa : List Byte × Nat :=
  if c.getD 1 0 &&& 0x08#8 ≠ 0#8 then uncompressDaMcast c off
  else uncompressUnicast env.zep1656 env.llDst c (c.getD 1 0 &&& 0x03#8) off

def uncompressNhUdp : (List Byte × List Byte) × Nat :=
  let mode := c.getD off 0 &&& 0x03#8
  let first := c.getD (off + 1) 0
  if mode = 0#8 then ((slice c (off + 1) 2, slice c (off + 3) 2), off + 5)
  else if mode = 1#8 then
    ((slice c (off + 1) 2, be16 (0xF0 * 256 + (c.getD (off + 3) 0).toNat)), off + 4)
  else if mode = 2#8 then ((be16 (0xF0 * 256 + first.toNat), slice c (off + 2) 2), off + 4)
  else
    ((be16 (0xF0B * 16 + (first >>> 4).toNat), be16 (0xF0B * 16 + (first &&& 0x0F#8).toNat)),
      off + 2)

/-- The end of `uncompress_IPHC_header`: the headers take the place of the `off` bytes that were
read, and the lengths are set from the length of the packet. -/
def finishHeaders (rest : List Buf) (off : Nat) (ipv6 : Ipv6Hdr)
    (udp : Option UdpHdr) (chksum : Bool) : Option (List Buf) :=
  if c.length < off then none
  else
    let hdr := ipv6.bytes ++ (udp.elim [] UdpHdr.bytes)
    let frags := NetPkt.compact env.size (hdr :: c.drop off :: rest)
    let len := be16 (frags.flatten.length - ipv6HLen)
    let frags := frags.modifyHead fun frag => writeAt frag 4 len
    if udp.isNone then some frags
    else
      let frags := frags.modifyHead fun frag => writeAt frag 44 len
      if chksum then
        let sum := be16 (~~~env.calcChksumUdp frags).toNat
        some (frags.modifyHead fun frag => writeAt frag 46 sum)
      else some frags

def uncompressIphcHeader : List Buf → Option (List Buf)
  | [] => none
  | c :: rest =>
    if c.getD 1 0 &&& 0x80#8 ≠ 0#8 then none
    else
      let tfl := uncompressTfl c 2
      let nh := uncompressNh c tfl.2
      let hl := uncompressHoplimit c nh.2
      match uncompressSa env c hl.2 with
      | none => none
      | some sa =>
        let da := uncompressDa env c sa.2
        let ipv6 : Ipv6Hdr :=
          { vtc := tfl.1.1, tcflow := tfl.1.2.1, flow := tfl.1.2.2, len := [0#8, 0#8]
            nexthdr := nh.1, hopLimit := hl.1, src := sa.1, dst := da.1 }
        if c.getD 0 0 &&& 0x04#8 = 0#8 then finishHeaders env c rest da.2 ipv6 none false
        else if c.getD da.2 0 &&& 0xF0#8 ≠ 0xF0#8 then none
        else
          let ports := uncompressNhUdp c da.2
          let udp (chksum : List Byte) : UdpHdr :=
            { srcPort := ports.1.1, dstPort := ports.1.2, len := [0#8, 0#8], chksum := chksum }
          if c.getD da.2 0 &&& 0x08#8 = 0#8 then
            finishHeaders env c rest (ports.2 + 2) ipv6 (some (udp (slice c ports.2 2))) false
          else finishHeaders env c rest ports.2 ipv6 (some (udp [0#8, 0#8])) true

def net6loUncompress (frags : List Buf) : Option (List Buf) :=
  let dispatch := (frags.headD []).getD 0 0
  if dispatch &&& dispatchIphc = dispatchIphc then uncompressIphcHeader env frags
  else if dispatch &&& dispatchIpv6 = dispatchIpv6 then
    some (frags.modifyHead fun frag => frag.drop 1)
  else some frags

end Zephyr.SixLo
