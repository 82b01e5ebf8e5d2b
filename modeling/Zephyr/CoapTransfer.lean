import Zephyr.CoapRoundTrip
import Zephyr.Run

/-! A block-wise transfer from the first response to the last. A peer answers each request at the
position that the request's Block2 option asks for. -/

namespace Zephyr.Coap

open NetPkt List Option

variable {valueSize fuel : Nat} {context : OptionContext} {optLen code : BitVec 16}
  {o cur junk : CoapOption} {opts : List CoapOption} {payload rest bytes : List Byte}

def wireOptions (last : BitVec 16) : List CoapOption → List Byte
  | [] => []
  | o :: opts => wireOption (o.delta - last) o.value ++ wireOptions o.delta opts

def behind (payload : List Byte) : List Byte :=
  if payload.isEmpty then [] else coapMarker :: payload

theorem behind_eq_nil : behind payload = [] ↔ payload = [] := by
  rw [behind]
  split
  · next h => simpa using h
  · next h => simpa using h

theorem wireOptions_eq_nil {last : BitVec 16} : wireOptions last opts = [] ↔ opts = [] := by
  cases opts with
  | nil => exact iff_of_true rfl rfl
  | cons o opts => simp [wireOptions, wireOption]

/-- What `coap_find_options` finds: the first option with the number, if there is one. -/
def found (code : BitVec 16) (opts : List CoapOption) : Option CoapOption :=
  opts.find? (·.delta = code)

theorem found_cons :
    found code (o :: opts) = if o.delta = code then some o else found code opts := by
  by_cases h : o.delta = code <;> simp [found, h]

theorem found_eq_none (h : ∀ o ∈ opts, code < o.delta) : found code opts = none := by
  refine find?_eq_none.mpr fun o ho heq => ?_
  exact BitVec.lt_irrefl code (of_decide_eq_true heq ▸ h o ho)

/-- The options that `coap_find_options` can read: none of them is too long, and none without a
value ends the packet. -/
structure Legible (valueSize : Nat) (payload : List Byte) (opts : List CoapOption) : Prop where
  short : ∀ o ∈ opts, o.value.length ≤ valueSize
  last : payload = [] → ∀ o ∈ opts.getLast?, o.value ≠ []

theorem Legible.tail (h : Legible valueSize payload (o :: opts)) :
    Legible valueSize payload opts where
  short := (forall_mem_cons.mp h.short).2
  last := by
    intro hnil p hp
    cases opts with
    | nil => cases hp
    | cons q opts => exact h.last hnil p (by rwa [getLast?_cons_cons])

theorem Legible.value_ne (h : Legible valueSize payload (o :: opts)) (last : BitVec 16) :
    o.value ++ (wireOptions last opts ++ behind payload) ≠ [] := by
  intro hnil
  simp only [append_eq_nil_iff, wireOptions_eq_nil, behind_eq_nil] at hnil
  obtain ⟨hvalue, rfl, rfl⟩ := hnil
  exact h.last rfl o (by simp) hvalue

theorem findLoop_spec (h : Legible valueSize payload opts)
    (hsorted : opts.Pairwise (·.delta ≤ ·.delta)) (hlong : ∀ o ∈ opts, o.value.length < 65536)
    (hge : ∀ o ∈ opts, context.delta ≤ o.delta)
    (hat : context.cursor.At (wireOptions context.delta opts ++ behind payload))
    (hne : wireOptions context.delta opts ++ behind payload ≠ []) (hcur : cur.delta ≠ code)
    (hfuel : opts.length < fuel) (optLen : BitVec 16) :
    ∃ x, findLoop valueSize code fuel context [cur] 0 optLen =
      some ((found code opts).elim (0, [x]) fun o => (1, [o])) := by
  induction opts generalizing context cur fuel optLen with
  | nil =>
    obtain ⟨fuel, rfl⟩ : ∃ n, fuel = n + 1 := ⟨fuel - 1, by simp at hfuel; omega⟩
    have hpayload : payload ≠ [] := fun hnil => hne (by simp [wireOptions, behind, hnil])
    have hbehind : behind payload = coapMarker :: payload := if_neg (by simpa using hpayload)
    rw [hbehind] at hat
    obtain ⟨c, hparse⟩ : ∃ c, parseOption valueSize context true optLen =
        some ⟨false, ⟨context.delta, c⟩, none, optLen + 1⟩ :=
      parseOption_marker hat hpayload true optLen
    refine ⟨cur, ?_⟩
    rw [findLoop]
    split
    · rw [hparse]
      simp [found, hcur]
    · rfl
  | cons o opts ih =>
    rw [length_cons] at hfuel
    obtain ⟨hfirst, hsorted⟩ := pairwise_cons.mp hsorted
    obtain ⟨hlen, hlong⟩ := forall_mem_cons.mp hlong
    obtain ⟨fuel, rfl⟩ : ∃ n, fuel = n + 1 := ⟨fuel - 1, by omega⟩
    rw [findLoop]
    by_cases hle : context.delta ≤ code
    · rw [if_pos ⟨hle, Nat.one_pos⟩]
      rw [wireOptions, append_assoc] at hat
      obtain ⟨c, hparse, hat'⟩ := parseOption_wire hat (h.short o mem_cons_self) hlen
        (h.value_ne o.delta) optLen
      generalize optLen + _ = len at hparse
      have hany : ([cur].set 0 o)[0]?.any (·.delta = code) = decide (o.delta = code) := rfl
      simp only [hparse, bind_some, elim_some, hany, decide_eq_true_eq, found_cons]
      by_cases heq : o.delta = code
      · refine ⟨cur, ?_⟩
        obtain ⟨fuel, rfl⟩ : ∃ n, fuel = n + 1 := ⟨fuel - 1, by omega⟩
        have hfull : findLoop valueSize code (fuel + 1) ⟨o.delta, c⟩ ([cur].set 0 o) (0 + 1) len =
            some (0 + 1, [cur].set 0 o) := if_neg fun hand => absurd hand.2 (Nat.lt_irrefl 1)
        rw [if_pos heq, if_pos heq, hfull, ite_self]
        rfl
      · split
        · next hmore =>
          exact ih h.tail hsorted hlong hfirst hat' (by simpa using hmore) heq (by omega) len
        · next hend =>
          have hnil : opts = [] := by
            simp only [Bool.not_eq_true, Bool.not_eq_false', List.isEmpty_iff,
              append_eq_nil_iff, wireOptions_eq_nil] at hend
            exact hend.1
          rw [hnil]
          exact ⟨o, rfl⟩
    · have hnone : found code (o :: opts) = none :=
        found_eq_none fun p hp => Nat.lt_of_lt_of_le (BitVec.not_le.mp hle) (hge p hp)
      rw [if_neg (fun hand => hle hand.1), hnone]
      exact ⟨cur, rfl⟩

/-- A response as it has been received. `junk` and `junk'` are what stands on the stack where
`coap_update_from_block` and `coap_next_block` look for an option. -/
structure Response extends RcvPacket where
  head : Byte
  code : Byte
  header : List Byte
  options : List CoapOption
  payload : List Byte
  junk : BitVec 16 → CoapOption
  junk' : CoapOption
  at_bytes : cursor.At (head :: code :: header ++ (wireOptions 0 options ++ behind payload))
  hdrLen_eq : hdrLen = header.length + 2
  sorted : options.Pairwise (·.delta ≤ ·.delta)
  long : ∀ o ∈ options, o.value.length < 65536

variable {r : Response}

theorem Response.frags_ne (r : Response) : r.cursor.frags ≠ [] :=
  r.at_bytes.frags_ne (cons_ne_nil _ _)

theorem wireOptions_length (last : BitVec 16) (opts : List CoapOption) :
    opts.length ≤ (wireOptions last opts).length := by
  induction opts generalizing last with
  | nil => exact Nat.le_refl 0
  | cons o opts ih =>
    have hle := ih o.delta
    simp only [wireOptions, wireOption, length_cons, length_append]
    omega

theorem coapFindOptions_response (h : Legible valueSize r.payload r.options)
    (hjunk : junk.delta ≠ code) :
    ∃ x, coapFindOptions valueSize r.toRcvPacket code [junk] =
      some ((found code r.options).elim (0, [x]) fun o => (1, [o])) := by
  obtain ⟨c, hread, hat⟩ := r.at_bytes.read_append 0 (cons_ne_nil _ _)
  have hskip : fragRead 0 r.cursor r.hdrLen = (c, r.head :: r.code :: r.header) := by
    rw [r.hdrLen_eq]
    exact hread
  have hne : ¬ (r.cursor.frags.isEmpty ∨ r.hdrLen = 0) := by
    rw [List.isEmpty_iff, r.hdrLen_eq]
    rintro (hnil | hzero)
    · exact r.frags_ne hnil
    · omega
  rw [coapFindOptions, if_neg hne, hskip]
  dsimp only
  rw [status_eq hat]
  by_cases hnil : wireOptions 0 r.options ++ behind r.payload = []
  · obtain ⟨hopts, -⟩ := append_eq_nil_iff.mp hnil
    rw [hnil, wireOptions_eq_nil.mp hopts]
    exact ⟨junk, rfl⟩
  · rw [isEmpty_eq_false_iff.mpr hnil]
    have hlen := congrArg length hat.bytes
    rw [length_drop, length_append] at hlen
    have hle := wireOptions_length 0 r.options
    exact findLoop_spec h r.sorted r.long (fun _ _ => Nat.zero_le _) hat hnil hjunk (by omega) 0

theorem getBlockOption_response (h : Legible valueSize r.payload r.options)
    (hjunk : junk.delta ≠ code) :
    getBlockOption valueSize junk r.toRcvPacket code =
      (found code r.options).elim noEntry coapOptionValueToInt := by
  obtain ⟨x, hfind⟩ := coapFindOptions_response h hjunk
  rw [getBlockOption, hfind]
  cases found code r.options <;> rfl

theorem isRequest_response (hknown : r.code ∈ knownCodes) (hresponse : 0x40#8 ≤ r.code) :
    isRequest r.toRcvPacket = false := by
  obtain ⟨c, hread, hat⟩ := Cursor.At.read_append (x := [r.head]) r.at_bytes 0 (cons_ne_nil _ _)
  obtain ⟨c', hread', hat'⟩ := Cursor.At.read_append (x := [r.code]) hat 0 (cons_ne_nil _ _)
  have hcode : headerGetCode r.toRcvPacket = r.code := by
    have hread : fragRead 0 r.cursor 1 = (c, [r.head]) := hread
    have hread' : fragRead 0 c 1 = (c', [r.code]) := hread'
    have hstatus : checkFragReadStatus c' ≠ .error := by
      rw [status_eq hat']
      split <;> simp
    rw [headerGetCode, hread, hread']
    exact if_neg hstatus
  have hclass : knownCodes.all fun code => 0x40#8 ≤ code → code &&& ~~~0x07#8 ≠ 0 := by decide
  rw [isRequest, coapHeaderGetCode, hcode, if_pos hknown]
  exact decide_eq_false (of_decide_eq_true (all_eq_true.mp hclass r.code hknown) hresponse)

def uint (value : List Byte) : Nat := value.foldl (fun n b => n * 256 + b.toNat) 0

theorem toNat_setWidth_byte (a : Byte) : (a.setWidth 32).toNat = a.toNat := by
  rw [BitVec.toNat_setWidth]
  omega

theorem or_shiftLeft_toNat (x : BitVec 32) (a : Byte) {k : Nat} (hx : x.toNat < 2 ^ k)
    (hk : k ≤ 24) : (x ||| a.setWidth 32 <<< k).toNat = a.toNat * 2 ^ k + x.toNat := by
  have hlt : a.toNat * 2 ^ k < 2 ^ 32 := by
    calc a.toNat * 2 ^ k < 2 ^ 8 * 2 ^ k := Nat.mul_lt_mul_of_pos_right a.isLt (Nat.two_pow_pos k)
      _ = 2 ^ (8 + k) := (Nat.pow_add ..).symm
      _ ≤ 2 ^ 32 := Nat.pow_le_pow_right (by decide) (by omega)
  rw [BitVec.toNat_or, BitVec.toNat_shiftLeft, toNat_setWidth_byte, Nat.shiftLeft_eq,
    Nat.mod_eq_of_lt hlt, Nat.or_comm, ← Nat.shiftLeft_eq, ← Nat.shiftLeft_add_eq_or_of_lt hx]

theorem coapOptionValueToInt_eq (h : o.value.length ≤ 3) :
    (coapOptionValueToInt o).toNat = uint o.value := by
  rw [coapOptionValueToInt]
  match hvalue : o.value with
  | [] => rfl
  | [a] =>
    rw [toNat_setWidth_byte]
    simp [uint]
  | [a, b] =>
    have hb := toNat_setWidth_byte b
    rw [or_shiftLeft_toNat _ a (by omega) (by decide), hb]
    simp [uint]
  | [a, b, c] =>
    have hc := toNat_setWidth_byte c
    have hbc := or_shiftLeft_toNat (k := 8) (c.setWidth 32) b (by omega) (by decide)
    rw [or_shiftLeft_toNat _ a (by omega) (by decide), hbc]
    simp only [uint, foldl_cons, foldl_nil]
    omega
  | a :: b :: c :: d :: rest =>
    rw [hvalue] at h
    simp only [length_cons] at h
    omega

variable {v n : Nat}

theorem getBlockSize_ofNat (h : v < 2 ^ 24) : getBlockSize (BitVec.ofNat 32 v) = v % 8 := by
  rw [getBlockSize, BitVec.toNat_and, BitVec.toNat_ofNat, Nat.mod_eq_of_lt (by omega)]
  exact Nat.and_two_pow_sub_one_eq_mod v 3

theorem getMore_ofNat (h : v < 2 ^ 24) : getMore (BitVec.ofNat 32 v) = decide (v / 8 % 2 = 1) := by
  have hbit : (BitVec.ofNat 32 v &&& 8#32).toNat = (v.testBit 3).toNat * 2 ^ 3 := by
    rw [BitVec.toNat_and, BitVec.toNat_ofNat, Nat.mod_eq_of_lt (by omega)]
    exact Nat.and_two_pow v 3
  rw [Nat.testBit_eq_decide_div_mod_eq] at hbit
  rw [getMore, decide_eq_decide, ← BitVec.toNat_ne_iff_ne, hbit]
  by_cases hodd : v / 2 ^ 3 % 2 = 1 <;> simp

theorem newCurrent_ofNat (h : v < 2 ^ 24) :
    (newCurrent (BitVec.ofNat 32 v)).toNat = v / 16 * 2 ^ (v % 8 + 4) := by
  have hv : (BitVec.ofNat 32 v).toNat = v := by
    rw [BitVec.toNat_ofNat, Nat.mod_eq_of_lt (by omega)]
  have hpos : (BitVec.ofNat 32 v).msb = false := by
    rw [BitVec.msb_eq_false_iff_two_mul_lt]
    omega
  have hnum : (getNum (BitVec.ofNat 32 v)).toNat = v / 16 := by
    rw [getNum, BitVec.sshiftRight_eq_of_msb_false hpos, BitVec.toNat_ushiftRight, hv]
    exact Nat.shiftRight_eq_div_pow v 4
  have hlt : v / 16 * 2 ^ (v % 8 + 4) < 2 ^ 32 := by
    calc v / 16 * 2 ^ (v % 8 + 4) ≤ v / 16 * 2 ^ 11 :=
          Nat.mul_le_mul_left _ (Nat.pow_le_pow_right (by decide) (by omega))
      _ < 2 ^ 32 := by omega
  rw [newCurrent, getBlockSize_ofNat h, BitVec.toNat_shiftLeft, hnum, Nat.shiftLeft_eq,
    Nat.mod_eq_of_lt hlt]

theorem uint_intValue {val : BitVec 32} (h : val < 0xFFFF#32) :
    uint (intValue val) = val.toNat := by
  have hlt : val.toNat < 65535 := h
  rw [intValue]
  split
  · next hzero => rw [hzero]; rfl
  split
  · next hone =>
    have hone : val.toNat < 255 := hone
    simp [uint]
    omega
  · simp [uint]
    omega

def position (v : Nat) : Nat := v / 16 * 2 ^ (v % 8 + 4)

def More (v : Nat) : Prop := v / 8 % 2 = 1

instance More.instDecidable (v : Nat) : Decidable (More v) := inferInstanceAs (Decidable (_ = _))

def asked (ctx : BlockContext) : Nat := uint (intValue (blockValue ctx false))

def Response.block2 (r : Response) : Option Nat :=
  (found coapOptionBlock2 r.options).map (uint ·.value)

structure Transfer where
  ctx : BlockContext
  received : Nat
deriving DecidableEq

def Transfer.init (blockSize : Nat) (totalSize : BitVec 32) : Transfer :=
  ⟨coapBlockTransferInit blockSize totalSize, 0⟩

def exchange (valueSize : Nat) (ctx : BlockContext) (r : Response) : BlockContext × BitVec 32 :=
  coapNextBlock valueSize r.junk' r.toRcvPacket
    (coapUpdateFromBlock valueSize r.junk r.toRcvPacket ctx).1

def step (valueSize : Nat) (s : Transfer) (r : Response) : Option Transfer :=
  some ⟨(exchange valueSize s.ctx r).1,
    s.received + if r.block2.isSome then r.payload.length else 0⟩

/-- The response of a peer that has `body` bytes: a block of them where the request asks for one, of
no more than the size asked for, or no block. -/
structure Answers (body : Nat) (s : Transfer) (r : Response) : Prop where
  response : 0x40#8 ≤ r.code
  block1 : found coapOptionBlock1 r.options = none
  size2 : ∀ o ∈ found coapOptionSize2 r.options, uint o.value = body
  length : ∀ o ∈ found coapOptionBlock2 r.options, o.value.length ≤ 3
  place : ∀ v ∈ r.block2, position v = position (asked s.ctx) ∧ position v ≤ body
  lower : ∀ v ∈ r.block2, v % 8 ≤ asked s.ctx % 8
  payload : ∀ v ∈ r.block2, r.payload.length = min (2 ^ (v % 8 + 4)) (body - position v)
  more : ∀ v ∈ r.block2, More v ↔ position v + r.payload.length < body

structure Plain (valueSize : Nat) (s : Transfer) (r : Response) : Prop where
  known : r.code ∈ knownCodes
  legible : Legible valueSize r.payload r.options
  size2 : ∀ o ∈ found coapOptionSize2 r.options, o.value.length ≤ 3
  number : s.ctx.current.toNat < 4096 * 2 ^ (s.ctx.blockSize + 4)
  junk : ∀ code ∈ [coapOptionBlock1, coapOptionBlock2, coapOptionSize1, coapOptionSize2],
    (r.junk code).delta ≠ code
  junk' : r.junk'.delta ≠ coapOptionBlock2

/-- The context of a transfer that has come to `received` bytes. -/
structure Good (body : Nat) (s : Transfer) : Prop where
  current : s.ctx.current.toNat = s.received
  blockSize : s.ctx.blockSize ≤ 6
  aligned : 2 ^ (s.ctx.blockSize + 4) ∣ s.received
  total : s.ctx.totalSize.toNat = 0 ∨ s.ctx.totalSize.toNat = body

variable {s t : Transfer} {body : Nat} {totalSize : BitVec 32} {blockSize : Nat}

theorem good_init (hsize : blockSize ≤ 6) (htotal : totalSize.toNat = 0 ∨ totalSize.toNat = body) :
    Good body (.init blockSize totalSize) :=
  ⟨rfl, hsize, Nat.dvd_zero _, htotal⟩

theorem bytes_toNat {bs : Nat} (h : bs ≤ 6) : (coapBlockSizeToBytes bs).toNat = 2 ^ (bs + 4) := by
  have hlt : 2 ^ (bs + 4) < 2 ^ 32 := Nat.pow_lt_pow_right (by decide) (by omega)
  rw [coapBlockSizeToBytes, BitVec.toNat_shiftLeft, Nat.shiftLeft_eq,
    show (1#32).toNat = 1 from rfl, Nat.one_mul, Nat.mod_eq_of_lt hlt]

theorem blockValue_toNat {ctx : BlockContext} (hsize : ctx.blockSize ≤ 6)
    (hnum : ctx.current.toNat / 2 ^ (ctx.blockSize + 4) < 4096) :
    (blockValue ctx false).toNat =
      ctx.current.toNat / 2 ^ (ctx.blockSize + 4) * 16 + ctx.blockSize := by
  have hdiv : (ctx.current / coapBlockSizeToBytes ctx.blockSize).toNat =
      ctx.current.toNat / 2 ^ (ctx.blockSize + 4) := by
    rw [BitVec.toNat_udiv, bytes_toNat hsize]
  have hlow : (BitVec.ofNat 32 ctx.blockSize &&& 7#32).toNat = ctx.blockSize := by
    have hmod := getBlockSize_ofNat (v := ctx.blockSize) (by omega)
    rw [getBlockSize] at hmod
    omega
  have hhigh : ((ctx.current / coapBlockSizeToBytes ctx.blockSize) <<< 4).toNat =
      (ctx.current.toNat / 2 ^ (ctx.blockSize + 4)) <<< 4 := by
    rw [BitVec.toNat_shiftLeft, hdiv]
    omega
  have hnone : ¬ ((false : Bool) ∧ ctx.current + coapBlockSizeToBytes ctx.blockSize <
      ctx.totalSize) := fun h => Bool.false_ne_true h.1
  rw [blockValue, if_neg hnone, BitVec.or_zero, BitVec.toNat_or, hlow, hhigh, Nat.or_comm,
    ← Nat.shiftLeft_add_eq_or_of_lt (by omega : ctx.blockSize < 2 ^ 4), Nat.shiftLeft_eq]

theorem Good.asked_eq (h : Good body s) (hp : Plain valueSize s r) :
    position (asked s.ctx) = s.received ∧ asked s.ctx % 8 = s.ctx.blockSize := by
  have hsize := h.blockSize
  have hnum : s.ctx.current.toNat / 2 ^ (s.ctx.blockSize + 4) < 4096 :=
    Nat.div_lt_of_lt_mul (Nat.mul_comm .. ▸ hp.number)
  have hval := blockValue_toNat hsize hnum
  have hlt : blockValue s.ctx false < 0xFFFF#32 := by
    rw [BitVec.lt_def]
    show _ < 65535
    omega
  have hasked : asked s.ctx = s.received / 2 ^ (s.ctx.blockSize + 4) * 16 + s.ctx.blockSize := by
    rw [asked, uint_intValue hlt, hval, h.current]
  have hmod : asked s.ctx % 8 = s.ctx.blockSize := by omega
  have hdiv : asked s.ctx / 16 = s.received / 2 ^ (s.ctx.blockSize + 4) := by omega
  refine ⟨?_, hmod⟩
  rw [position, hmod, hdiv, Nat.div_mul_cancel h.aligned]

theorem eq_ofNat_uint (h : o.value.length ≤ 3) :
    coapOptionValueToInt o = BitVec.ofNat 32 (uint o.value) := by
  rw [← coapOptionValueToInt_eq h, BitVec.ofNat_toNat, BitVec.setWidth_eq]

theorem uint_lt (h : o.value.length ≤ 3) : uint o.value < 2 ^ 24 := by
  match hvalue : o.value with
  | [] => decide
  | [a] =>
    simp [uint]
    omega
  | [a, b] =>
    simp [uint]
    omega
  | [a, b, c] =>
    simp [uint]
    omega
  | a :: b :: c :: d :: rest =>
    rw [hvalue] at h
    simp only [length_cons] at h
    omega

theorem ofNat_ne_noEntry (h : v < 2 ^ 24) : BitVec.ofNat 32 v ≠ noEntry := by
  intro heq
  have := congrArg BitVec.toNat heq
  rw [BitVec.toNat_ofNat] at this
  have hno : noEntry.toNat = 4294967294 := rfl
  omega

def Response.size2 (r : Response) : BitVec 32 :=
  (found coapOptionSize2 r.options).elim 0 coapOptionValueToInt

section

variable (ha : Answers body s r) (hp : Plain valueSize s r)

include ha hp

theorem size2_cases : r.size2.toNat = 0 ∨ r.size2.toNat = body := by
  rw [Response.size2]
  cases hfound : found coapOptionSize2 r.options with
  | none => exact .inl rfl
  | some o =>
    rw [elim_some, coapOptionValueToInt_eq (hp.size2 o hfound)]
    exact .inr (ha.size2 o hfound)

theorem update_eq : coapUpdateFromBlock valueSize r.junk r.toRcvPacket s.ctx =
      updateDescriptiveBlock s.ctx (r.block2.elim noEntry (BitVec.ofNat 32)) r.size2 := by
  have hjunk := hp.junk
  simp only [forall_mem_cons, not_mem_nil, false_imp_iff, implies_true, and_true] at hjunk
  obtain ⟨hj1, hj2, hj3, hj4⟩ := hjunk
  have hb2 : (found coapOptionBlock2 r.options).elim noEntry coapOptionValueToInt =
      r.block2.elim noEntry (BitVec.ofNat 32) := by
    rw [Response.block2]
    cases hfound : found coapOptionBlock2 r.options with
    | none => rfl
    | some o => exact eq_ofNat_uint (ha.length o hfound)
  have hs2 : (if (found coapOptionSize2 r.options).elim noEntry coapOptionValueToInt = noEntry
      then 0 else (found coapOptionSize2 r.options).elim noEntry coapOptionValueToInt) =
      r.size2 := by
    rw [Response.size2]
    cases hfound : found coapOptionSize2 r.options with
    | none => rfl
    | some o =>
      have hlen := hp.size2 o hfound
      rw [elim_some, elim_some, eq_ofNat_uint hlen]
      exact if_neg (ofNat_ne_noEntry (uint_lt hlen))
  rw [coapUpdateFromBlock, isRequest_response hp.known ha.response]
  simp only [getBlockOption_response hp.legible hj1, getBlockOption_response hp.legible hj2,
    getBlockOption_response hp.legible hj4, ha.block1, hb2, hs2]
  rfl

theorem next_eq (ctx : BlockContext) : coapNextBlock valueSize r.junk' r.toRcvPacket ctx =
      if r.block2.all (More ·) then
        ({ ctx with current := ctx.current + coapBlockSizeToBytes ctx.blockSize },
          ctx.current + coapBlockSizeToBytes ctx.blockSize)
      else (ctx, 0) := by
  have hmore : getMore (getBlockOption valueSize r.junk' r.toRcvPacket coapOptionBlock2) =
      r.block2.all (More ·) := by
    rw [getBlockOption_response hp.legible hp.junk', Response.block2]
    cases hfound : found coapOptionBlock2 r.options with
    -- the bit of the flag is set in the error
    | none => decide
    | some o =>
      have hlen := ha.length o hfound
      rw [elim_some, eq_ofNat_uint hlen, getMore_ofNat (uint_lt hlen)]
      rfl
  rw [coapNextBlock, isRequest_response hp.known ha.response]
  rw [if_neg Bool.false_ne_true, hmore]

end

def blockContext (s : Transfer) (r : Response) (v : Nat) : BlockContext where
  totalSize := if r.size2 ≠ 0 then r.size2 else s.ctx.totalSize
  current := s.ctx.current
  blockSize := v % 8

theorem block2_lt (ha : Answers body s r) (hv : v ∈ r.block2) : v < 2 ^ 24 := by
  obtain ⟨o, hfound, rfl⟩ := map_eq_some_iff.mp hv
  exact uint_lt (ha.length o hfound)

theorem Good.position_eq (h : Good body s) (ha : Answers body s r) (hp : Plain valueSize s r)
    (hv : v ∈ r.block2) : position v = s.received :=
  (ha.place v hv).1.trans (h.asked_eq hp).1

theorem Good.update_block (h : Good body s) (ha : Answers body s r) (hp : Plain valueSize s r)
    (hv : v ∈ r.block2) :
    coapUpdateFromBlock valueSize r.junk r.toRcvPacket s.ctx = (blockContext s r v, true) := by
  have hlt := block2_lt ha hv
  have hlower : v % 8 ≤ s.ctx.blockSize := (h.asked_eq hp).2 ▸ ha.lower v hv
  have hcurrent : newCurrent (BitVec.ofNat 32 v) = s.ctx.current := by
    refine BitVec.eq_of_toNat_eq ?_
    rw [newCurrent_ofNat hlt, h.current]
    exact h.position_eq ha hp hv
  have hsize : ¬ (r.size2 ≠ 0 ∧ s.ctx.totalSize ≠ 0 ∧ s.ctx.totalSize ≠ r.size2) := by
    rintro ⟨hsize, htotal, hne⟩
    have hsize := (size2_cases ha hp).resolve_left fun h0 => hsize (BitVec.eq_of_toNat_eq h0)
    have htotal := h.total.resolve_left fun h0 => htotal (BitVec.eq_of_toNat_eq h0)
    exact hne (BitVec.eq_of_toNat_eq (htotal.trans hsize.symm))
  have htotal : ¬ (s.ctx.totalSize ≠ 0 ∧ s.ctx.totalSize < s.ctx.current) := by
    rintro ⟨hne, hbeyond⟩
    have htotal := h.total.resolve_left fun h0 => hne (BitVec.eq_of_toNat_eq h0)
    have hplace := (ha.place v hv).2
    rw [BitVec.lt_def, h.current] at hbeyond
    rw [h.position_eq ha hp hv] at hplace
    omega
  have hblock : r.block2.elim noEntry (BitVec.ofNat 32) = BitVec.ofNat 32 v := by
    rw [mem_def.mp hv]
    rfl
  rw [update_eq ha hp, hblock, updateDescriptiveBlock, if_neg (ofNat_ne_noEntry hlt),
    if_neg hsize, getBlockSize_ofNat hlt, if_neg fun hand => absurd hand.2 (Nat.not_lt.mpr hlower),
    hcurrent, if_neg htotal, Nat.min_eq_left hlower]
  rfl

theorem Good.received_lt (h : Good body s) (hp : Plain valueSize s r) : s.received < 2 ^ 22 := by
  calc s.received = s.ctx.current.toNat := h.current.symm
    _ < 4096 * 2 ^ (s.ctx.blockSize + 4) := hp.number
    _ ≤ 4096 * 2 ^ 10 :=
      Nat.mul_le_mul_left _ (Nat.pow_le_pow_right (by decide) (by have := h.blockSize; omega))

theorem Good.advance (h : Good body s) (hp : Plain valueSize s r) {bs : Nat} (hbs : bs ≤ 6) :
    (s.ctx.current + coapBlockSizeToBytes bs).toNat = s.received + 2 ^ (bs + 4) := by
  have hle : 2 ^ (bs + 4) ≤ 2 ^ 10 := Nat.pow_le_pow_right (by decide) (by omega)
  have hlt := h.received_lt hp
  rw [BitVec.toNat_add, h.current, bytes_toNat hbs, Nat.mod_eq_of_lt (by omega)]

theorem Answers.payload_length (ha : Answers body s r) (hv : v ∈ r.block2) (hmore : More v) :
    r.payload.length = 2 ^ (v % 8 + 4) := by
  have hlen := ha.payload v hv
  have hlt := (ha.more v hv).mp hmore
  omega

section

variable (h : Good body s) (ha : Answers body s r) (hp : Plain valueSize s r)

include h ha hp

theorem Good.blockSize_le (hv : v ∈ r.block2) : v % 8 ≤ 6 :=
  Nat.le_trans ((h.asked_eq hp).2 ▸ ha.lower v hv) h.blockSize

def Going (valueSize body : Nat) (s : Transfer) (r : Response) : Prop :=
  Answers body s r ∧ Plain valueSize s r ∧ ∃ v ∈ r.block2, More v

theorem exchange_more (hv : v ∈ r.block2) (hmore : More v) : exchange valueSize s.ctx r =
      ({ blockContext s r v with current := s.ctx.current + coapBlockSizeToBytes (v % 8) },
        s.ctx.current + coapBlockSizeToBytes (v % 8)) := by
  rw [exchange, h.update_block ha hp hv, next_eq ha hp, mem_def.mp hv]
  exact if_pos (decide_eq_true hmore)

theorem exchange_last (hv : v ∈ r.block2) (hmore : ¬ More v) :
    exchange valueSize s.ctx r = (blockContext s r v, 0) := by
  rw [exchange, h.update_block ha hp hv, next_eq ha hp, mem_def.mp hv]
  exact if_neg (by simpa using hmore)

end

theorem exchange_none (ha : Answers body s r) (hp : Plain valueSize s r) (hnone : r.block2 = none) :
    exchange valueSize s.ctx r =
      ({ s.ctx with current := s.ctx.current + coapBlockSizeToBytes s.ctx.blockSize },
        s.ctx.current + coapBlockSizeToBytes s.ctx.blockSize) := by
  rw [exchange, update_eq ha hp, next_eq ha hp, hnone]
  rfl

theorem Good.step (h : Good body s) (hgo : Going valueSize body s r)
    (hstep : step valueSize s r = some t) : Good body t := by
  obtain ⟨ha, hp, v, hv, hmore⟩ := hgo
  cases hstep
  have hbs := h.blockSize_le ha hp hv
  have hpayload := ha.payload_length hv hmore
  rw [exchange_more h ha hp hv hmore]
  have hsome : r.block2.isSome := isSome_of_mem hv
  refine ⟨?_, hbs, ?_, ?_⟩
  · dsimp only
    rw [if_pos hsome, hpayload]
    exact h.advance hp hbs
  · dsimp only [blockContext]
    rw [if_pos hsome, hpayload, ← h.position_eq ha hp hv]
    exact Nat.dvd_add (Nat.dvd_mul_left ..) (Nat.dvd_refl _)
  · dsimp only [blockContext]
    split
    · exact size2_cases ha hp
    · exact h.total

/-- After a block the context stands at the number of bytes received, and zero is returned for the
last one only. A response without a block changes nothing. -/
def StepRight (valueSize : Nat) (s : Transfer) (r : Response) : Prop :=
  let out := exchange valueSize s.ctx r
  match r.block2 with
  | some v => out.1.current.toNat = s.received + r.payload.length ∧ (out.2 = 0 ↔ ¬ More v)
  | none => out.1 = s.ctx ∧ out.2 = 0

/-- From every state that blocks with the flag lead to, exactly the other blocks with the flag and
the empty ones are handled right. The last block is recognised but not counted. -/
theorem stepRight_iff (hsize : blockSize ≤ 6)
    (htotal : totalSize.toNat = 0 ∨ totalSize.toNat = body)
    (hrun : GuardedRun (step valueSize) (Going valueSize body) (.init blockSize totalSize) s)
    (ha : Answers body s r) (hp : Plain valueSize s r) :
    (StepRight valueSize s r ↔ ∃ v ∈ r.block2, More v ∨ r.payload = []) ∧
      ∀ v ∈ r.block2, ((exchange valueSize s.ctx r).2 = 0 ↔ ¬ More v) ∧
        (¬ More v → (exchange valueSize s.ctx r).1.current.toNat = s.received) := by
  have h : Good body s := hrun.invariant (fun _ _ _ hs => hs.step) (good_init hsize htotal)
  rw [StepRight]
  cases hv : r.block2 with
  | none =>
    refine ⟨iff_of_false (fun hsame => ?_) (by simp), nofun⟩
    rw [exchange_none ha hp hv] at hsame
    have hcurrent : s.ctx.current + coapBlockSizeToBytes s.ctx.blockSize = s.ctx.current :=
      congrArg BlockContext.current hsame.1
    have hadvance := h.advance hp h.blockSize
    have hpos := Nat.two_pow_pos (s.ctx.blockSize + 4)
    rw [hcurrent, h.current] at hadvance
    omega
  | some v =>
    have hbs := h.blockSize_le ha hp hv
    by_cases hmore : More v
    · have hadvance := h.advance hp hbs
      have hret : (exchange valueSize s.ctx r).2 = 0 ↔ ¬ More v := by
        refine iff_of_false (fun hzero => ?_) (not_not.mpr hmore)
        rw [exchange_more h ha hp hv hmore] at hzero
        have hpos := Nat.two_pow_pos (v % 8 + 4)
        have hzero : s.ctx.current + coapBlockSizeToBytes (v % 8) = 0 := hzero
        rw [hzero, show (0 : BitVec 32).toNat = 0 from rfl] at hadvance
        omega
      have hcurrent : (exchange valueSize s.ctx r).1.current.toNat =
          s.received + r.payload.length := by
        rw [exchange_more h ha hp hv hmore, ha.payload_length hv hmore]
        exact hadvance
      refine ⟨iff_of_true ⟨hcurrent, hret⟩ ⟨v, rfl, .inl hmore⟩, fun w hw => ?_⟩
      cases hw
      exact ⟨hret, fun hlast => absurd hmore hlast⟩
    · have hcurrent : (blockContext s r v).current.toNat = s.received := h.current
      rw [exchange_last h ha hp hv hmore, hcurrent]
      have hret : (0 : BitVec 32) = 0 ↔ ¬ More v := iff_of_true rfl hmore
      refine ⟨⟨?_, ?_⟩, fun w hw => ?_⟩
      · rintro ⟨hlen, -⟩
        exact ⟨v, rfl, .inr (eq_nil_of_length_eq_zero (by omega))⟩
      · rintro ⟨w, hw, hor⟩
        cases hw
        rw [hor.resolve_left hmore]
        exact ⟨rfl, hret⟩
      · cases hw
        exact ⟨hret, fun _ => rfl⟩

def singleOption (o : CoapOption) (payload : List Byte) (long : o.value.length < 65536) :
    Response where
  cursor := ⟨[[0x60, 0x45, 0, 1] ++ (wireOptions 0 [o] ++ behind payload)], 0⟩
  hdrLen := 4
  head := 0x60
  code := 0x45
  header := [0, 1]
  options := [o]
  payload := payload
  junk := fun _ => ⟨0, []⟩
  junk' := ⟨0, []⟩
  at_bytes := by
    have hne : ∀ f ∈ [[0x60#8, 0x45, 0, 1] ++ (wireOptions 0 [o] ++ behind payload)], f ≠ [] := by
      simp
    have hat := at_start hne
    rwa [flatten_singleton] at hat
  hdrLen_eq := rfl
  sorted := pairwise_singleton ..
  long := List.forall_mem_singleton.mpr long

instance Answers.instDecidable (body : Nat) (s : Transfer) (r : Response) :
    Decidable (Answers body s r) :=
  decidable_of_iff (0x40#8 ≤ r.code ∧ found coapOptionBlock1 r.options = none ∧
      (∀ o ∈ found coapOptionSize2 r.options, uint o.value = body) ∧
      (∀ o ∈ found coapOptionBlock2 r.options, o.value.length ≤ 3) ∧
      (∀ v ∈ r.block2, position v = position (asked s.ctx) ∧ position v ≤ body) ∧
      (∀ v ∈ r.block2, v % 8 ≤ asked s.ctx % 8) ∧
      (∀ v ∈ r.block2, r.payload.length = min (2 ^ (v % 8 + 4)) (body - position v)) ∧
      ∀ v ∈ r.block2, (More v ↔ position v + r.payload.length < body))
    ⟨fun ⟨h1, h2, h3, h4, h5, h6, h7, h8⟩ => ⟨h1, h2, h3, h4, h5, h6, h7, h8⟩,
      fun h => ⟨h.response, h.block1, h.size2, h.length, h.place, h.lower, h.payload, h.more⟩⟩

local instance : LawfulBEq Byte := inferInstance

instance Plain.instDecidable (valueSize : Nat) (s : Transfer) (r : Response) :
    Decidable (Plain valueSize s r) :=
  decidable_of_iff (r.code ∈ knownCodes ∧ ((∀ o ∈ r.options, o.value.length ≤ valueSize) ∧
        (r.payload = [] → ∀ o ∈ r.options.getLast?, o.value ≠ [])) ∧
      (∀ o ∈ found coapOptionSize2 r.options, o.value.length ≤ 3) ∧
      s.ctx.current.toNat < 4096 * 2 ^ (s.ctx.blockSize + 4) ∧
      -- a list's own instance, not that of all numbers
      [coapOptionBlock1, coapOptionBlock2, coapOptionSize1, coapOptionSize2].all
        (fun code => (r.junk code).delta ≠ code) ∧
      r.junk'.delta ≠ coapOptionBlock2)
    ⟨fun ⟨h1, ⟨h2, h3⟩, h4, h5, h6, h7⟩ =>
        ⟨h1, ⟨h2, h3⟩, h4, h5, fun code h => of_decide_eq_true (List.all_eq_true.mp h6 code h), h7⟩,
      fun h => ⟨h.known, ⟨h.legible.short, h.legible.last⟩, h.size2, h.number,
        List.all_eq_true.mpr fun code hcode => decide_eq_true (h.junk code hcode), h.junk'⟩⟩

def fullBlock (v : Byte) : Response :=
  singleOption ⟨coapOptionBlock2, [v]⟩ (replicate 16 7) (by simp)

theorem fullBlock_right : StepRight 12 ⟨⟨0, 16, 0⟩, 16⟩ (fullBlock 0x18) := by
  have hfirst : (fullBlock 0x08).block2 = some 8 := by decide +kernel
  have ha : Answers 48 (.init 0 0) (fullBlock 0x08) := by decide +kernel
  have hp : Plain 12 (.init 0 0) (fullBlock 0x08) := by decide +kernel
  have hstep : step 12 (.init 0 0) (fullBlock 0x08) = some ⟨⟨0, 16, 0⟩, 16⟩ := by
    decide +kernel
  have hrun : GuardedRun (step 12) (Going 12 48) (.init 0 0) ⟨⟨0, 16, 0⟩, 16⟩ :=
    .single ⟨fullBlock 0x08, ⟨ha, hp, 8, hfirst, rfl⟩, hstep⟩
  have hv : (fullBlock 0x18).block2 = some 24 := by decide +kernel
  exact (stepRight_iff (Nat.zero_le 6) (.inl rfl) hrun (by decide +kernel)
    (by decide +kernel)).1.mpr ⟨24, hv, .inl rfl⟩

/-- Without a block the position moves on; and the bytes of the last block are not counted. -/
theorem exchange_wrong :
    (∃ r, r.block2 = none ∧ Answers 5 (.init 2 0) r ∧ ¬ StepRight 12 (.init 2 0) r) ∧
      ∃ r, r.block2 = some 2 ∧ Answers 5 (.init 2 0) r ∧ ¬ StepRight 12 (.init 2 0) r := by
  constructor
  · have ha : Answers 5 (.init 2 0) (singleOption ⟨12, []⟩ [7] (by decide)) := by decide +kernel
    refine ⟨_, by decide +kernel, ha, fun h => ?_⟩
    have hret : (exchange 12 _ (singleOption ⟨12, []⟩ [7] (by decide))).2 = 0 := h.2
    exact absurd hret (by decide +kernel)
  · have ha : Answers 5 (.init 2 0)
        (singleOption ⟨coapOptionBlock2, [2]⟩ [7, 7, 7, 7, 7] (by decide)) := by decide +kernel
    have hv : (singleOption ⟨coapOptionBlock2, [2]⟩ [7, 7, 7, 7, 7] (by decide)).block2 =
        some 2 := by decide +kernel
    refine ⟨_, hv, ha, fun h => ?_⟩
    have hcurrent := h.1
    exact absurd hcurrent (by decide +kernel)

/-- What `coap_append_option_int` puts in the option is the number in as few bytes as there can be,
the first one first, and `coap_option_value_to_int` gives it back. -/
structure IntRight (val : BitVec 32) : Prop where
  bigEndian : uint (intValue val) = val.toNat
  shortest : (intValue val).head? ≠ some 0
  readBack : ∀ delta, coapOptionValueToInt ⟨delta, intValue val⟩ = val

theorem toNat_byte (val : BitVec 32) (k : Nat) :
    ((val >>> k).setWidth 8).toNat = val.toNat / 2 ^ k % 256 := by
  rw [BitVec.toNat_setWidth, BitVec.toNat_ushiftRight, Nat.shiftRight_eq_div_pow]

theorem coapOptionValueToInt_four (delta : BitVec 16) (a b c d : Byte) :
    (coapOptionValueToInt ⟨delta, [a, b, c, d]⟩).toNat = uint [a, b, c, c] := by
  have hc := toNat_setWidth_byte c
  have hcc := or_shiftLeft_toNat (k := 8) (c.setWidth 32) c (by omega) (by decide)
  have hbcc := or_shiftLeft_toNat (k := 16) _ b (by omega : (c.setWidth 32 |||
    c.setWidth 32 <<< 8).toNat < 2 ^ 16) (by decide)
  rw [coapOptionValueToInt, or_shiftLeft_toNat _ a (by omega) (by decide), hbcc, hcc]
  simp only [uint, foldl_cons, foldl_nil]
  omega

theorem head_ne_zero {b : Byte} {bytes : List Byte} :
    (b :: bytes).head? ≠ some 0 ↔ b.toNat ≠ 0 := by
  rw [head?_cons, Ne, some_inj]
  exact not_congr BitVec.toNat_inj.symm

theorem intRight_iff (val : BitVec 32) : IntRight val ↔
    val.toNat < 0xFFFF ∧ val.toNat ≠ 0xFF ∨ 0xFFFF < val.toNat ∧ val.toNat ≠ 0xFFFFFF ∧
      val.toNat / 256 % 256 = val.toNat % 256 ∧
      (val.toNat < 0xFFFFFF → val.toNat / 65536 % 256 = val.toNat % 256) := by
  have h0 : ((val >>> 0).setWidth 8).toNat = val.toNat % 256 := by
    rw [toNat_byte, pow_zero, Nat.div_one]
  have h8 : ((val >>> 8).setWidth 8).toNat = val.toNat / 256 % 256 := toNat_byte val 8
  have h16 : ((val >>> 16).setWidth 8).toNat = val.toNat / 65536 % 256 := toNat_byte val 16
  have hsum : val.toNat = ((val >>> 0).setWidth 8).toNat + 256 * ((val >>> 8).setWidth 8).toNat +
      65536 * ((val >>> 16).setWidth 8).toNat + 16777216 * ((val >>> 24).setWidth 8).toNat := by
    rw [h0, h8, h16, toNat_byte]
    omega
  rw [← h0, ← h8, ← h16]
  clear h0 h8 h16
  have hright : ∀ value, intValue val = value → (IntRight val ↔ uint value = val.toNat ∧
      value.head? ≠ some 0 ∧ ∀ delta, (coapOptionValueToInt ⟨delta, value⟩).toNat = val.toNat) := by
    rintro _ rfl
    exact ⟨fun h => ⟨h.1, h.2, fun delta => by rw [h.3]⟩,
      fun h => ⟨h.1, h.2.1, fun delta => BitVec.eq_of_toNat_eq (h.2.2 delta)⟩⟩
  have hread : ∀ value : List Byte, value.length ≤ 3 → ∀ delta,
      (coapOptionValueToInt ⟨delta, value⟩).toNat = uint value :=
    fun value hle delta => coapOptionValueToInt_eq hle
  obtain ⟨value, hval⟩ : ∃ value, intValue val = value := ⟨_, rfl⟩
  rw [hright value hval]
  rw [intValue] at hval
  simp only [BitVec.lt_def, ← BitVec.toNat_inj, BitVec.ofNat_eq_ofNat, BitVec.toNat_ofNat] at hval
  split_ifs at hval with hz h1 h2 h3 <;> subst hval
  · simp [hz, uint, hread]
  · simp (disch := simp) only [hread, forall_const, uint, foldl_cons, foldl_nil, head_ne_zero]
    omega
  · simp (disch := simp) only [hread, forall_const, uint, foldl_cons, foldl_nil, head_ne_zero]
    omega
  · simp (disch := simp) only [hread, forall_const, uint, foldl_cons, foldl_nil, head_ne_zero]
    refine ⟨fun h => ?_, by omega⟩
    have hlow : ((val >>> 16).setWidth 8).toNat = ((val >>> 0).setWidth 8).toNat := by omega
    omega
  · simp only [coapOptionValueToInt_four, forall_const, uint, foldl_cons, foldl_nil, head_ne_zero]
    omega

theorem intValue_read_wrong : coapOptionValueToInt ⟨0, intValue 0x123456#32⟩ = 0x345612#32 := by
  decide

end Zephyr.Coap
