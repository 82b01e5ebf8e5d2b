import Zephyr.NetPkt

/-! CoAP of `coap.c`: the functions that write a packet and parse one, options found and integers
stored in them, the context of a block-wise transfer, and the outstanding requests, with which
responses are matched by the bytes of a token, but not its length. -/

namespace Zephyr.Coap

open NetPkt

abbrev Byte := BitVec 8

def coapMarker : Byte := 0xFF#8
def coapOptionNoExt : Nat := 12
def coapOptionExt13 : Nat := 13
def coapOptionExt14 : Nat := 14
def coapOptionExt15 : Nat := 15
def coapOptionExt269 : Nat := 269
def basicHeaderSize : Nat := 4

structure CoapOption where
  delta : BitVec 16
  value : List Byte
deriving DecidableEq

variable (opt : Byte)

def optionHeaderGetDelta : Nat := ((opt &&& 0xF0#8) >>> 4).toNat

def optionHeaderGetLen : Nat := (opt &&& 0x0F#8).toNat

def optionHeaderSetDelta (delta : Nat) : Byte := (BitVec.ofNat 8 delta &&& 0xF#8) <<< 4

def optionHeaderSetLen (len : Nat) : Byte := opt ||| (BitVec.ofNat 8 len &&& 0xF#8)

structure CoapPacket where
  pkt : Pkt Byte
  hdrLen : Byte
  optLen : Byte
  lastDelta : BitVec 16

def be16 (n : Nat) : List Byte := [BitVec.ofNat 8 (n / 256), BitVec.ofNat 8 n]

/-- `net_pkt_append_u8` waits for a buffer for ever; its result is not looked at. -/
def appendU8 (size : Nat) (pkt : Pkt Byte) (b : Byte) : Pkt Byte := (append size 1 pkt [b]).1

def appendBe16 (size : Nat) (pkt : Pkt Byte) (n : Nat) : Pkt Byte := (append size 2 pkt (be16 n)).1

variable (c : Cursor Byte) (size avail : Nat) (pkt : Pkt Byte)

/-- `net_pkt_append_all`, where `avail` buffers can be had in time. -/
def appendAll (data : List Byte) : Option (Pkt Byte) :=
  let r := append size avail pkt data
  if r.2 = data.length then some r.1 else none

def coapPacketInit (ver type : Byte) (token : List Byte)
    (code : Byte) (id : BitVec 16) : Option CoapPacket :=
  if pkt.frags.isEmpty then none
  else
    let hdr := (ver &&& 0x3#8) <<< 6 ||| (type &&& 0x3#8) <<< 4 |||
      (BitVec.ofNat 8 token.length &&& 0xF#8)
    let pkt := appendBe16 size (appendU8 size (appendU8 size pkt hdr) code) id.toNat
    (if token.isEmpty then some pkt else appendAll size avail pkt token).map fun pkt =>
      ⟨pkt, BitVec.ofNat 8 (1 + 1 + 2 + token.length), 0, 0⟩

def coapPacketAppendPayloadMarker (size : Nat) (cpkt : CoapPacket) : Option CoapPacket :=
  (appendAll size 1 cpkt.pkt [coapMarker]).map fun pkt => { cpkt with pkt }

def coapPacketAppendPayload (cpkt : CoapPacket) (payload : List Byte) : Option CoapPacket :=
  (appendAll size avail cpkt.pkt payload).map fun pkt => { cpkt with pkt }

/-- What `encode_extended_option` gives for the option's first byte, as the extension, and as the
size of the extension. -/
def encodeExtendedOption (num : Nat) : Nat × Nat × Nat :=
  if num < coapOptionExt13 then (num, 0, 0)
  else if num < coapOptionExt269 then (coapOptionExt13, num - coapOptionExt13, 1)
  else (coapOptionExt14, num - coapOptionExt269, 2)

def encodeOption (code : BitVec 16) (value : List Byte) : Option (Pkt Byte × Nat) :=
  let (optDelta, deltaExt, deltaSize) := encodeExtendedOption code.toNat
  let (optLen, lenExt, lenSize) := encodeExtendedOption value.length
  let pkt := appendU8 size pkt (optionHeaderSetLen (optionHeaderSetDelta optDelta) optLen)
  let pkt :=
    if deltaSize = 1 then appendU8 size pkt (BitVec.ofNat 8 deltaExt)
    else if deltaSize = 2 then appendBe16 size pkt deltaExt
    else pkt
  let pkt :=
    if lenSize = 1 then appendU8 size pkt (BitVec.ofNat 8 lenExt)
    -- the source asks for `delta_size` here
    else if deltaSize = 2 then appendBe16 size pkt lenExt
    else pkt
  (if value.isEmpty then some pkt else appendAll size avail pkt value).map fun pkt =>
    (pkt, 1 + deltaSize + lenSize + value.length)

def coapPacketAppendOption (cpkt : CoapPacket) (code : BitVec 16)
    (value : List Byte) : Option CoapPacket :=
  let skip := (fragRead 0 ⟨cpkt.pkt.frags, 0⟩ cpkt.hdrLen.toNat).1
  if code < cpkt.lastDelta then none
  else if skip.frags.isEmpty ∧ skip.pos = 0xffff then none
  else
    let code :=
      if cpkt.optLen ≠ 0 then if code = cpkt.lastDelta then 0 else code - cpkt.lastDelta else code
    (encodeOption size avail cpkt.pkt code value).map fun r =>
      { pkt := r.1
        hdrLen := cpkt.hdrLen
        optLen := cpkt.optLen + BitVec.ofNat 8 r.2
        lastDelta := cpkt.lastDelta + code }

inductive Status where
  | error
  | ended
  | more
deriving DecidableEq

def checkFragReadStatus : Status :=
  if c.frags.isEmpty ∧ c.pos = 0xffff then .error
  else if c.frags.isEmpty ∧ c.pos = 0 then .ended
  else .more

structure Decoded where
  cursor : Cursor Byte
  val : Nat
  hdrLen : Nat
  status : Status

def decodeDelta (opt : Nat) : Option Decoded :=
  if opt = coapOptionExt13 then
    let r := fragRead 0 c 1
    let val := (r.2.getD 0 0).toNat
    if checkFragReadStatus r.1 = .error then none
    else some ⟨r.1, val + coapOptionExt13, 1, checkFragReadStatus r.1⟩
  else if opt = coapOptionExt14 then
    let r := fragRead 0 c 2
    let val := (r.2.getD 0 0).toNat * 256 + (r.2.getD 1 0).toNat
    if checkFragReadStatus r.1 = .error then none
    else some ⟨r.1, (val + coapOptionExt269) % 65536, 2, checkFragReadStatus r.1⟩
  else if opt = coapOptionExt15 then none
  else some ⟨c, opt, 0, .ended⟩

structure OptionContext where
  delta : BitVec 16
  cursor : Cursor Byte

/-- What `parse_option` returns and writes: whether there is more, the option if it has been stored,
and the length of the options so far. -/
structure Parsed where
  more : Bool
  context : OptionContext
  option : Option CoapOption
  optLen : BitVec 16

/-- `parse_option`, with `slot` if there is an option to write to. A value has room for `valueSize`
bytes. -/
def parseOption (valueSize : Nat) (context : OptionContext) (slot : Bool) (optLen : BitVec 16) :
    Option Parsed :=
  let r := fragRead 0 context.cursor 1
  let opt := r.2.getD 0 0
  let status := checkFragReadStatus r.1
  if status = .error then none
  else if opt = coapMarker then
    if status = .more then some ⟨false, ⟨context.delta, r.1⟩, none, optLen + 1⟩ else none
  else
    let delta := optionHeaderGetDelta opt
    let len := optionHeaderGetLen opt
    if status = .ended ∧ coapOptionNoExt < delta then none
    else
      (if coapOptionNoExt < delta then
          (decodeDelta r.1 delta).filter fun d => ¬ (d.status = .ended ∧ coapOptionNoExt < len)
        else some ⟨r.1, delta, 0, status⟩).bind fun d =>
      (if coapOptionNoExt < len then decodeDelta d.cursor len
        else some ⟨d.cursor, len, 0, d.status⟩).bind fun l =>
      let optLen := optLen + BitVec.ofNat 16 (1 + d.hdrLen + l.hdrLen + l.val)
      let delta := context.delta + BitVec.ofNat 16 d.val
      if l.status = .ended then
        if l.val = 0 then some ⟨false, ⟨delta, l.cursor⟩, none, optLen⟩ else none
      else if slot ∧ valueSize < l.val then none
      else
        let r := fragRead 0 l.cursor l.val
        if checkFragReadStatus r.1 = .error then none
        else some ⟨checkFragReadStatus r.1 = .more, ⟨delta, r.1⟩,
          if slot then some ⟨delta, r.2⟩ else none, optLen⟩

/-- The loop of `parse_options`: the options that have been stored, and the length of all. Every
round reads a byte. -/
def parseLoop (valueSize optNum : Nat) :
    Nat → Nat → OptionContext → BitVec 16 → Option (List CoapOption × BitVec 16)
  | 0, _, _, _ => none
  | fuel + 1, num, context, optLen =>
    (parseOption valueSize context (num < optNum) optLen).bind fun p =>
      if p.more then
        (parseLoop valueSize optNum fuel (if num < optNum then num + 1 else num) p.context
          p.optLen).map fun r => (p.option.toList ++ r.1, r.2)
      else some (p.option.toList, p.optLen)

def parseOptions (valueSize optNum : Nat) (c : Cursor Byte) (hdrLen : Nat) :
    Option (List CoapOption × BitVec 16) :=
  let skip := (fragRead 0 c hdrLen).1
  match checkFragReadStatus skip with
  | .error => none
  | .ended => some ([], 0)
  | .more => parseLoop valueSize optNum (skip.frags.flatten.length + 1) 0 ⟨0, skip⟩ 0

def getPktLen : Nat :=
  ((c.frags.headD []).length - c.pos + c.frags.tail.flatten.length) % 65536

def getHeaderTkl : Nat := (((fragRead 0 c 1).2.getD 0 0) &&& 0xF#8).toNat

def getHeaderLen : Option Nat :=
  if getPktLen c < basicHeaderSize then none
  else if 8 < getHeaderTkl c then none
  else if getPktLen c < basicHeaderSize + getHeaderTkl c then none
  else some (basicHeaderSize + getHeaderTkl c)

/-- What `coap_packet_parse` writes to the packet and to the array of options. -/
structure Parse where
  hdrLen : Nat
  optLen : Byte
  options : List CoapOption
deriving DecidableEq

/-- `coap_packet_parse`, for a packet with `ipLen` bytes of headers in front of the CoAP header. -/
def coapPacketParse (valueSize optNum ipLen : Nat) (frags : List (List Byte)) : Option Parse :=
  if frags.isEmpty then none
  else
    let c := (fragRead 0 ⟨frags, 0⟩ ipLen).1
    match checkFragReadStatus c with
    | .error => none
    | .ended => some ⟨0, 0, []⟩
    | .more =>
      (getHeaderLen c).bind fun hdrLen =>
        (parseOptions valueSize optNum c hdrLen).map fun r => ⟨hdrLen, r.2.setWidth 8, r.1⟩

def coapOptionBlock2 : BitVec 16 := 23#16
def coapOptionBlock1 : BitVec 16 := 27#16
def coapOptionSize2 : BitVec 16 := 28#16
def coapOptionSize1 : BitVec 16 := 60#16

def coapMakeResponseCode (clas det : Nat) : Byte := BitVec.ofNat 8 (clas * 32 + det)

/-- The codes that `coap_header_get_code` gives back; for all others it is the empty code. -/
def knownCodes : List Byte :=
  [1, 2, 3, 4, coapMakeResponseCode 2 0, coapMakeResponseCode 2 1, coapMakeResponseCode 2 2,
    coapMakeResponseCode 2 3, coapMakeResponseCode 2 4, coapMakeResponseCode 2 5,
    coapMakeResponseCode 2 31, coapMakeResponseCode 4 0, coapMakeResponseCode 4 1,
    coapMakeResponseCode 4 2, coapMakeResponseCode 4 3, coapMakeResponseCode 4 4,
    coapMakeResponseCode 4 5, coapMakeResponseCode 4 6, coapMakeResponseCode 4 8,
    coapMakeResponseCode 4 12, coapMakeResponseCode 4 13, coapMakeResponseCode 4 15,
    coapMakeResponseCode 5 0, coapMakeResponseCode 5 1, coapMakeResponseCode 5 2,
    coapMakeResponseCode 5 3, coapMakeResponseCode 5 4, coapMakeResponseCode 5 5, 0]

structure RcvPacket where
  cursor : Cursor Byte
  hdrLen : Nat

variable (v : BitVec 32) (size avail : Nat) (valueSize : Nat) (cpkt : RcvPacket)

def headerGetCode : Byte :=
  let r := fragRead 0 (fragRead 0 cpkt.cursor 1).1 1
  if checkFragReadStatus r.1 = .error then 0 else r.2.getD 0 0

def coapHeaderGetCode : Byte :=
  let code := headerGetCode cpkt
  if code ∈ knownCodes then code else 0

def isRequest : Bool := coapHeaderGetCode cpkt &&& ~~~0x07#8 = 0

/-- The loop of `coap_find_options`: how many options have been found, and the array. Where nothing
is stored the entry that stands there is compared. -/
def findLoop (valueSize : Nat) (code : BitVec 16) :
    Nat → OptionContext → List CoapOption → Nat → BitVec 16 → Option (Nat × List CoapOption)
  | 0, _, _, _, _ => none
  | fuel + 1, context, options, count, optLen =>
    if context.delta ≤ code ∧ count < options.length then
      (parseOption valueSize context true optLen).bind fun p =>
        let options := p.option.elim options (options.set count)
        let count := if options[count]?.any (·.delta = code) then count + 1 else count
        if p.more then findLoop valueSize code fuel p.context options count p.optLen
        else some (count, options)
    else some (count, options)

/-- `coap_find_options`, where `options` is what the array holds before the call. -/
def coapFindOptions (code : BitVec 16)
    (options : List CoapOption) : Option (Nat × List CoapOption) :=
  if cpkt.cursor.frags.isEmpty ∨ cpkt.hdrLen = 0 then none
  else
    let skip := (fragRead 0 cpkt.cursor cpkt.hdrLen).1
    match checkFragReadStatus skip with
    | .error => none
    | .ended => some (0, options)
    | .more => findLoop valueSize code (skip.frags.flatten.length + 1) ⟨0, skip⟩ options 0 0

def coapOptionValueToInt (option : CoapOption) : BitVec 32 :=
  match option.value with
  | [a] => a.setWidth 32
  | [a, b] => b.setWidth 32 ||| a.setWidth 32 <<< 8
  | [a, b, c] => c.setWidth 32 ||| b.setWidth 32 <<< 8 ||| a.setWidth 32 <<< 16
  -- the third byte stands in the place of the fourth
  | [a, b, c, _] =>
    c.setWidth 32 ||| c.setWidth 32 <<< 8 ||| b.setWidth 32 <<< 16 ||| a.setWidth 32 <<< 24
  | _ => 0

def intValue (val : BitVec 32) : List Byte :=
  let byte (n : Nat) : Byte := (val >>> n).setWidth 8
  if val = 0 then []
  else if val < 0xFF#32 then [byte 0]
  else if val < 0xFFFF#32 then [byte 8, byte 0]
  -- the third byte stands behind the other two
  else if val < 0xFFFFFF#32 then [byte 8, byte 0, byte 16]
  else [byte 24, byte 16, byte 8, byte 0]

def coapAppendOptionInt (cpkt : CoapPacket) (code : BitVec 16)
    (val : BitVec 32) : Option CoapPacket :=
  coapPacketAppendOption size avail cpkt code (intValue val)

structure BlockContext where
  totalSize : BitVec 32
  current : BitVec 32
  blockSize : Nat
deriving DecidableEq

def coapBlockTransferInit (blockSize : Nat) (totalSize : BitVec 32) : BlockContext :=
  ⟨totalSize, 0, blockSize⟩

def coapBlockSizeToBytes (blockSize : Nat) : BitVec 32 := 1#32 <<< (blockSize + 4)

def getBlockSize : Nat := (v &&& 7#32).toNat

def getMore : Bool := v &&& 8#32 ≠ 0#32

def getNum : BitVec 32 := v.sshiftRight 4

variable (ctx : BlockContext)

def blockValue (withMore : Bool) : BitVec 32 :=
  let bytes := coapBlockSizeToBytes ctx.blockSize
  (BitVec.ofNat 32 ctx.blockSize &&& 7#32) |||
    (if withMore ∧ ctx.current + bytes < ctx.totalSize then 8#32 else 0#32) |||
    (ctx.current / bytes) <<< 4

def coapAppendBlock1Option (cpkt : CoapPacket) (request : Bool)
    (ctx : BlockContext) : Option CoapPacket :=
  coapAppendOptionInt size avail cpkt coapOptionBlock1 (blockValue ctx request)

def coapAppendBlock2Option (cpkt : CoapPacket) (request : Bool)
    (ctx : BlockContext) : Option CoapPacket :=
  coapAppendOptionInt size avail cpkt coapOptionBlock2 (blockValue ctx (!request))

def noEntry : BitVec 32 := -2#32

/-- `get_block_option`, with `junk` in the option that it does not initialise. -/
def getBlockOption (junk : CoapOption) (cpkt : RcvPacket) (code : BitVec 16) : BitVec 32 :=
  match coapFindOptions valueSize cpkt code [junk] with
  | some (_ + 1, option :: _) => coapOptionValueToInt option
  | _ => noEntry

def newCurrent (block : BitVec 32) : BitVec 32 := getNum block <<< (getBlockSize block + 4)

def updateDescriptiveBlock (block size : BitVec 32) : BlockContext × Bool :=
  if block = noEntry then (ctx, true)
  else if size ≠ 0 ∧ ctx.totalSize ≠ 0 ∧ ctx.totalSize ≠ size then (ctx, false)
  else if 0 < ctx.current ∧ ctx.blockSize < getBlockSize block then (ctx, false)
  else if ctx.totalSize ≠ 0 ∧ ctx.totalSize < newCurrent block then (ctx, false)
  else
    ({ totalSize := if size ≠ 0 then size else ctx.totalSize
       current := newCurrent block
       blockSize := min (getBlockSize block) ctx.blockSize }, true)

def updateControlBlock1 (block size : BitVec 32) : BlockContext × Bool :=
  if block = noEntry then (ctx, true)
  else if newCurrent block ≠ ctx.current then (ctx, false)
  else if ctx.blockSize < getBlockSize block then (ctx, false)
  else ({ ctx with blockSize := getBlockSize block, totalSize := size }, true)

def updateControlBlock2 (block : BitVec 32) : BlockContext × Bool :=
  if block = noEntry then (ctx, true)
  else if getMore block then (ctx, false)
  else if 0 < (getNum block).toInt ∧ getBlockSize block ≠ ctx.blockSize then (ctx, false)
  else
    ({ ctx with
       current := newCurrent block
       blockSize := min (getBlockSize block) ctx.blockSize }, true)

def coapUpdateFromBlock (junk : BitVec 16 → CoapOption) (cpkt : RcvPacket)
    (ctx : BlockContext) : BlockContext × Bool :=
  let option (code : BitVec 16) := getBlockOption valueSize (junk code) cpkt code
  let size (code : BitVec 16) := if option code = noEntry then 0 else option code
  if isRequest cpkt then
    let r := updateControlBlock2 ctx (option coapOptionBlock2)
    if r.2 then
      updateDescriptiveBlock r.1 (option coapOptionBlock1) (size coapOptionSize1)
    else r
  else
    let r := updateControlBlock1 ctx (option coapOptionBlock1) (size coapOptionSize1)
    if r.2 then
      updateDescriptiveBlock r.1 (option coapOptionBlock2) (size coapOptionSize2)
    else r

/-- `coap_next_block`: the context and the offset that is returned. -/
def coapNextBlock (junk : CoapOption) (cpkt : RcvPacket) (ctx : BlockContext) :
    BlockContext × BitVec 32 :=
  let code := if isRequest cpkt then coapOptionBlock1 else coapOptionBlock2
  if getMore (getBlockOption valueSize junk cpkt code) then
    let current := ctx.current + coapBlockSizeToBytes ctx.blockSize
    ({ ctx with current }, current)
  else (ctx, 0)

open List

def eNoEnt : Int := 2

/-- The message id, the token and the value of the Observe option of a packet, if it has one. -/
structure Packet where
  id : BitVec 16
  token : List Byte
  observe : Option (BitVec 32)

def getObserveOption (cpkt : Packet) : Int := cpkt.observe.elim (-eNoEnt) BitVec.toInt

structure CoapReply where
  age : Int
  token : List Byte
  id : BitVec 16
  tkl : Nat

def coapReplyInit (reply : CoapReply) (request : Packet) : CoapReply where
  id := request.id
  token := request.token ++ reply.token.drop request.token.length
  tkl := request.token.length
  age := if getObserveOption request = 0 then 2 else reply.age

/-- The entry is passed by at none of the `continue`s. -/
def Accepts (response : Packet) (r : CoapReply) : Prop :=
  ¬ (r.id = 0 ∧ r.tkl = 0) ∧ ¬ (r.id ≠ response.id ∧ response.token.length = 0) ∧
    ¬ (0 < response.token.length ∧ r.token.take response.token.length ≠ response.token) ∧
    ¬ (0 < getObserveOption response ∧ getObserveOption response < r.age ∧
      getObserveOption response ≠ 2)

instance (response : Packet) (r : CoapReply) : Decidable (Accepts response r) :=
  inferInstanceAs (Decidable (_ ∧ _))

/-- The entry whose callback is called, and the entries after the call. -/
def coapResponseReceived (response : Packet) (replies : List CoapReply) :
    Option Nat × List CoapReply :=
  match replies.findIdx? (Accepts response ·) with
  | none => (none, replies)
  | some i => (some i, replies.modify i fun r =>
    if 0 < getObserveOption response then { r with age := getObserveOption response } else r)

/-- An entry as it was before, and the request from which it has been initialised. -/
structure Entry where
  stale : CoapReply
  request : Packet

def Entry.reply (e : Entry) : CoapReply := coapReplyInit e.stale e.request

def Matches (response : Packet) (e : Entry) : Prop :=
  e.request.token = response.token ∧ (response.token = [] → e.request.id = response.id)

instance (response : Packet) (e : Entry) : Decidable (Matches response e) :=
  inferInstanceAs (Decidable (_ ∧ _))

variable {response : Packet} {entries : List Entry} {e : Entry}

def called (response : Packet) (entries : List Entry) : Option Nat :=
  (coapResponseReceived response (entries.map Entry.reply)).1

structure DispatchRight (response : Packet) (entries : List Entry) : Prop where
  only : ∀ i ∈ called response entries, ∃ e ∈ entries[i]?, Matches response e
  one : response.observe = none → entries.countP (Matches response ·) = 1 →
    (called response entries).isSome

theorem accepts_iff (hlen : e.request.token.length = response.token.length) :
    Accepts response e.reply ↔ Matches response e ∧ ¬ (e.request.id = 0 ∧ e.request.token = []) ∧
      ¬ (0 < getObserveOption response ∧ getObserveOption response < e.reply.age ∧
        getObserveOption response ≠ 2) := by
  have htake : e.reply.token.take response.token.length = e.request.token := by
    rw [← hlen]
    exact take_left
  have hid : e.reply.id = e.request.id := rfl
  have htkl : e.reply.tkl = e.request.token.length := rfl
  rw [Accepts, Matches, htake, hid, htkl, ← length_eq_zero_iff, ← length_eq_zero_iff]
  by_cases hzero : response.token.length = 0
  · have hsame : e.request.token = response.token := by
      rw [length_eq_zero_iff.mp hzero, length_eq_zero_iff.mp (hlen.trans hzero)]
    tauto
  · have hpos := Nat.pos_of_ne_zero hzero
    tauto

theorem dispatchRight_iff (response : Packet) (entries : List Entry) :
    DispatchRight response entries ↔ (∀ e ∈ entries.find? fun e => Accepts response e.reply,
        e.request.token.length = response.token.length) ∧
      ¬ (response.observe = none ∧ response.token = [] ∧ response.id = 0 ∧
        entries.countP (Matches response ·) = 1) := by
  have hcalled : called response entries =
      entries.findIdx? fun e => decide (Accepts response e.reply) := by
    rw [called, coapResponseReceived, findIdx?_map]
    split <;> next h => exact h.symm
  have hfind : ∀ i ∈ called response entries, ∃ e ∈ entries[i]?,
      entries.find? (fun e => decide (Accepts response e.reply)) = some e ∧
        Accepts response e.reply := by
    intro i hi
    obtain ⟨hlt, hacc, -⟩ := findIdx?_eq_some_iff_getElem.mp (hcalled ▸ hi)
    refine ⟨entries[i], getElem?_eq_getElem hlt, ?_, of_decide_eq_true hacc⟩
    rw [find?_eq_bind_findIdx?_getElem?, ← hcalled, hi]
    exact getElem?_eq_getElem hlt
  constructor
  · rintro ⟨honly, hone⟩
    have hmatch : ∀ e ∈ entries.find? fun e => Accepts response e.reply, Matches response e := by
      intro e he
      rw [find?_eq_bind_findIdx?_getElem?, ← hcalled] at he
      obtain ⟨i, hi, he⟩ := Option.bind_eq_some_iff.mp he
      obtain ⟨f, hf, hm⟩ := honly i hi
      rwa [Option.some.inj (he.symm.trans hf)]
    refine ⟨fun e he => congrArg length (hmatch e he).1, fun ⟨ho, htoken, hid, hcount⟩ => ?_⟩
    obtain ⟨i, hi⟩ := Option.isSome_iff_exists.mp (hone ho hcount)
    obtain ⟨e, -, he, hacc⟩ := hfind i hi
    obtain ⟨htok, hids⟩ := hmatch e he
    exact hacc.1 ⟨(hids htoken).trans hid, congrArg length (htok.trans htoken)⟩
  · rintro ⟨hlen, hzero⟩
    refine ⟨fun i hi => ?_, fun ho hcount => ?_⟩
    · obtain ⟨e, he, hf, hacc⟩ := hfind i hi
      exact ⟨e, he, ((accepts_iff (hlen e hf)).mp hacc).1⟩
    · obtain ⟨e, he, hm⟩ := countP_pos_iff.mp (hcount ▸ Nat.one_pos)
      have hm : Matches response e := of_decide_eq_true hm
      rw [hcalled, findIdx?_isSome]
      refine any_eq_true.mpr ⟨e, he, decide_eq_true ?_⟩
      refine (accepts_iff (congrArg length hm.1)).mpr ⟨hm, fun ⟨hid, htoken⟩ => hzero ?_, ?_⟩
      · have htok := hm.1.symm.trans htoken
        exact ⟨ho, htok, (hm.2 htok).symm.trans hid, hcount⟩
      · rw [getObserveOption, ho]
        exact fun hage => absurd hage.1 (by decide)

/-- The response's token is the first byte of the entry's, which is called. -/
theorem longer_token_called : called ⟨7, [1], none⟩
      [⟨⟨0, [0, 0, 0, 0, 0, 0, 0, 0], 0, 0⟩, ⟨5, [1, 2], none⟩⟩] = some 0 ∧
    ¬ Matches ⟨7, [1], none⟩ ⟨⟨0, [0, 0, 0, 0, 0, 0, 0, 0], 0, 0⟩, ⟨5, [1, 2], none⟩⟩ := by
  decide

end Zephyr.Coap
