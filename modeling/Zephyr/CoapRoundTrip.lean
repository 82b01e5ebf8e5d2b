import Zephyr.Coap

/-! Options written with `coap_packet_append_option` and read back with `coap_packet_parse`. The
length of an option has the wrong extension when its delta takes two bytes, and the length of all
options is kept in one byte. -/

namespace Zephyr.Coap

open NetPkt List Option

variable {size avail : Nat} {pkt pkt' : Pkt Byte} {cpkt cpkt' : CoapPacket}
  {data value rest payload : List Byte} {last : BitVec 16} {code : BitVec 16} {n : Nat}

theorem appendU8_appended (hsize : 0 < size) (pkt : Pkt Byte) (b : Byte) :
    Appended pkt (appendU8 size pkt b) [b] := append_appended hsize pkt [b]

theorem appendBe16_appended (hsize : 0 < size) (pkt : Pkt Byte) (n : Nat) :
    Appended pkt (appendBe16 size pkt n) (be16 n) := append_appended hsize pkt (be16 n)

theorem appendAll_eq_some : appendAll size avail pkt data = some pkt' ↔
    (append size avail pkt data).2 = data.length ∧ (append size avail pkt data).1 = pkt' := by
  rw [appendAll]
  split
  · next h => simp [h]
  · next h => simp [h]

section

variable (h : appendAll size avail pkt data = some pkt')
include h

theorem appendAll_appended : Appended pkt pkt' data := by
  obtain ⟨hlen, rfl⟩ := appendAll_eq_some.mp h
  exact append_all hlen

theorem appendAll_flatten : pkt'.frags.flatten = pkt.frags.flatten ++ data := by
  obtain ⟨hlen, rfl⟩ := appendAll_eq_some.mp h
  rw [append_flatten, hlen, take_length]

theorem dataLen_ne_of_appendAll (hne : data ≠ []) : pkt.dataLen ≠ some 0 := by
  intro hzero
  obtain ⟨hlen, -⟩ := appendAll_eq_some.mp h
  rw [(append_exhausted size avail data hzero).2] at hlen
  exact hne (eq_nil_of_length_eq_zero hlen.symm)

end

theorem appended_of_ite (h : (if data.isEmpty then some pkt else appendAll size avail pkt data) =
    some pkt') : Appended pkt pkt' data := by
  split at h
  · next hempty =>
    rw [isEmpty_iff.mp hempty, ← some.inj h]
    exact appended_nil pkt
  · exact appendAll_appended h

def extension (e : Nat × Nat × Nat) : List Byte :=
  if e.2.2 = 1 then [BitVec.ofNat 8 e.2.1] else if e.2.2 = 2 then be16 e.2.1 else []

def lenExtension (d l : Nat × Nat × Nat) : List Byte :=
  if l.2.2 = 1 then [BitVec.ofNat 8 l.2.1] else if d.2.2 = 2 then be16 l.2.1 else []

def optionHeader (d l : Nat × Nat × Nat) : Byte :=
  optionHeaderSetLen (optionHeaderSetDelta d.1) l.1

def optionBytes (delta : BitVec 16) (value : List Byte) : List Byte :=
  let d := encodeExtendedOption delta.toNat
  let l := encodeExtendedOption value.length
  optionHeader d l :: (extension d ++ (lenExtension d l ++ value))

def wireOption (delta : BitVec 16) (value : List Byte) : List Byte :=
  let d := encodeExtendedOption delta.toNat
  let l := encodeExtendedOption value.length
  optionHeader d l :: (extension d ++ (extension l ++ value))

def optionLen (delta : BitVec 16) (value : List Byte) : Nat :=
  1 + (encodeExtendedOption delta.toNat).2.2 + (encodeExtendedOption value.length).2.2 +
    value.length

theorem encodeOption_appended (hsize : 0 < size)
    (h : encodeOption size avail pkt code value = some (pkt', n)) :
    Appended pkt pkt' (optionBytes code value) ∧ n = optionLen code value := by
  rw [encodeOption] at h
  generalize hd : encodeExtendedOption code.toNat = d at h
  generalize hl : encodeExtendedOption value.length = l at h
  obtain ⟨_, hvalue, heq⟩ := map_eq_some_iff.mp h
  obtain ⟨rfl, rfl⟩ := Prod.mk.inj heq
  refine ⟨?_, by rw [optionLen, hd, hl]⟩
  have h0 := appendU8_appended hsize pkt (optionHeader d l)
  have h1 (p : Pkt Byte) : Appended p (if d.2.2 = 1 then appendU8 size p (BitVec.ofNat 8 d.2.1)
        else if d.2.2 = 2 then appendBe16 size p d.2.1 else p) (extension d) := by
    rw [extension]
    split
    · exact appendU8_appended hsize p _
    · split
      · exact appendBe16_appended hsize p _
      · exact appended_nil p
  have h2 (p : Pkt Byte) : Appended p (if l.2.2 = 1 then appendU8 size p (BitVec.ofNat 8 l.2.1)
        else if d.2.2 = 2 then appendBe16 size p l.2.1 else p) (lenExtension d l) := by
    rw [lenExtension]
    split
    · exact appendU8_appended hsize p _
    · split
      · exact appendBe16_appended hsize p _
      · exact appended_nil p
  rw [optionBytes, hd, hl]
  exact h0.trans ((h1 _).trans ((h2 _).trans (appended_of_ite hvalue)))

def codedDelta (optLen : Byte) (last code : BitVec 16) : BitVec 16 :=
  if optLen ≠ 0 then if code = last then 0 else code - last else code

theorem codedDelta_eq {optLen : Byte} (h : optLen = 0 → last = 0) (code : BitVec 16) :
    codedDelta optLen last code = code - last := by
  rw [codedDelta]
  split
  · split
    · next heq => exact heq ▸ (BitVec.sub_self code).symm
    · rfl
  · next hzero => exact h (not_not.mp hzero) ▸ (BitVec.sub_zero code).symm

theorem appendOption_appended (hsize : 0 < size)
    (h : coapPacketAppendOption size avail cpkt code value = some cpkt') :
    let delta := codedDelta cpkt.optLen cpkt.lastDelta code
    Appended cpkt.pkt cpkt'.pkt (optionBytes delta value) ∧
      cpkt'.optLen = cpkt.optLen + BitVec.ofNat 8 (optionLen delta value) ∧
      cpkt'.lastDelta = cpkt.lastDelta + delta := by
  intro delta
  rw [coapPacketAppendOption] at h
  split at h
  · cases h
  split at h
  · cases h
  obtain ⟨⟨_, n⟩, hencode, rfl⟩ := map_eq_some_iff.mp h
  obtain ⟨happended, rfl⟩ := encodeOption_appended hsize hencode
  exact ⟨happended, rfl, rfl⟩

def encoded : Byte → BitVec 16 → List CoapOption → List Byte
  | _, _, [] => []
  | optLen, last, o :: opts =>
    let delta := codedDelta optLen last o.delta
    optionBytes delta o.value ++
      encoded (optLen + BitVec.ofNat 8 (optionLen delta o.value)) (last + delta) opts

structure Message where
  ver : Byte
  type : Byte
  token : Nat × List Byte
  code : Byte
  id : BitVec 16
  options : List (Nat × CoapOption)
  payload : Nat × List Byte

def Message.opts (m : Message) : List CoapOption := m.options.map Prod.snd

def appendOptions (size : Nat) (cpkt : CoapPacket) (options : List (Nat × CoapOption)) :
    Option CoapPacket :=
  options.foldlM (fun cpkt o => coapPacketAppendOption size o.1 cpkt o.2.delta o.2.value) cpkt

def writePacket (size : Nat) (pkt : Pkt Byte) (m : Message) : Option CoapPacket :=
  (coapPacketInit size m.token.1 pkt m.ver m.type m.token.2 m.code m.id).bind fun cpkt =>
  (appendOptions size cpkt m.options).bind fun cpkt =>
  (coapPacketAppendPayloadMarker size cpkt).bind fun cpkt =>
  coapPacketAppendPayload size m.payload.1 cpkt m.payload.2

theorem appendOptions_appended (hsize : 0 < size) (options : List (Nat × CoapOption))
    (h : appendOptions size cpkt options = some cpkt') :
    Appended cpkt.pkt cpkt'.pkt (encoded cpkt.optLen cpkt.lastDelta (options.map Prod.snd)) := by
  induction options generalizing cpkt with
  | nil =>
    obtain rfl : cpkt = cpkt' := by simpa [appendOptions] using h
    exact appended_nil cpkt.pkt
  | cons o options ih =>
    obtain ⟨_, hfirst, hrest⟩ := bind_eq_some_iff.mp h
    obtain ⟨happended, hlen, hlast⟩ := appendOption_appended hsize hfirst
    have hih := ih hrest
    rw [hlen, hlast] at hih
    exact happended.trans hih

def header (m : Message) : List Byte :=
  [(m.ver &&& 0x3#8) <<< 6 ||| (m.type &&& 0x3#8) <<< 4 |||
    (BitVec.ofNat 8 m.token.2.length &&& 0xF#8), m.code] ++ be16 m.id.toNat ++ m.token.2

variable {m : Message}

theorem init_appended (hsize : 0 < size)
    (h : coapPacketInit size m.token.1 pkt m.ver m.type m.token.2 m.code m.id = some cpkt) :
    Appended pkt cpkt.pkt (header m) ∧ cpkt.optLen = 0 ∧ cpkt.lastDelta = 0 := by
  rw [coapPacketInit] at h
  split at h
  · cases h
  obtain ⟨_, htoken, rfl⟩ := map_eq_some_iff.mp h
  refine ⟨?_, rfl, rfl⟩
  exact (((appendU8_appended hsize pkt _).trans (appendU8_appended hsize _ m.code)).trans
    (appendBe16_appended hsize _ m.id.toNat)).trans (appended_of_ite htoken)

theorem writePacket_flatten (hsize : 0 < size) (hempty : pkt.frags.flatten = [])
    (h : writePacket size pkt m = some cpkt) :
    cpkt.pkt.frags.flatten = header m ++ (encoded 0 0 m.opts ++ coapMarker :: m.payload.2) := by
  obtain ⟨_, hinit, h⟩ := bind_eq_some_iff.mp h
  obtain ⟨_, hopts, h⟩ := bind_eq_some_iff.mp h
  obtain ⟨_, hc2, h⟩ := bind_eq_some_iff.mp h
  obtain ⟨_, hmarker, rfl⟩ := map_eq_some_iff.mp hc2
  obtain ⟨_, hpayload, rfl⟩ := map_eq_some_iff.mp h
  obtain ⟨hheader, hlen, hlast⟩ := init_appended hsize hinit
  have hoptions := appendOptions_appended hsize m.options hopts
  rw [hlen, hlast] at hoptions
  have hall := (hheader.trans hoptions).all.resolve_right
    (dataLen_ne_of_appendAll hmarker (cons_ne_nil _ _))
  rw [hempty] at hall
  rw [appendAll_flatten hpayload]
  simp only [appendAll_flatten hmarker, hall, append_assoc, cons_append, nil_append, Message.opts]

inductive Extends : Nat → List Byte → Nat → Prop
  | plain {n : Nat} (h : n < 13) : Extends n [] n
  | one (b : Byte) : Extends 13 [b] (b.toNat + 13)
  | two (a b : Byte) : Extends 14 [a, b] ((a.toNat * 256 + b.toNat + 269) % 65536)

variable {c : Cursor Byte}

theorem status_more (h : c.At data) (hne : data ≠ []) : checkFragReadStatus c = .more := by
  have hfrags : ¬ c.frags.isEmpty := by
    rw [List.isEmpty_iff]
    exact h.frags_ne hne
  rw [checkFragReadStatus, if_neg (fun hand => hfrags hand.1), if_neg (fun hand => hfrags hand.1)]

theorem status_ended (h : c.At []) : checkFragReadStatus c = .ended := by
  have hnil : c.frags = [] ∧ c.pos = 0 := by
    rcases h.pos with hlt | hnil
    · have hbytes := drop_eq_nil_iff.mp h.bytes
      cases hfrags : c.frags with
      | nil => simp [hfrags] at hlt
      | cons frag rest =>
        simp only [hfrags, headD_cons, flatten_cons, length_append] at hlt hbytes
        omega
    · exact hnil
  rw [checkFragReadStatus, hnil.1, hnil.2]
  rfl

theorem status_eq (h : c.At data) :
    checkFragReadStatus c = if data.isEmpty then .ended else .more := by
  cases data with
  | nil => exact status_ended h
  | cons b data => exact status_more h (cons_ne_nil b data)

theorem Extends.decode {nib val : Nat} {ext : List Byte} (h : Extends nib ext val)
    (hat : c.At (ext ++ rest)) (hrest : rest ≠ []) :
    ∃ c', (if coapOptionNoExt < nib then decodeDelta c nib else some ⟨c, nib, 0, .more⟩) =
      some ⟨c', val, ext.length, .more⟩ ∧ c'.At rest := by
  cases h with
  | plain h => exact ⟨c, if_neg (by rw [coapOptionNoExt]; omega), hat⟩
  | one b =>
    obtain ⟨c', hread, hat'⟩ := hat.read_append 0 (cons_ne_nil _ _)
    have hread : fragRead 0 c 1 = (c', [b]) := hread
    refine ⟨c', ?_, hat'⟩
    rw [decodeDelta]
    simp only [hread, status_more hat' hrest]
    rfl
  | two a b =>
    obtain ⟨c', hread, hat'⟩ := hat.read_append 0 (cons_ne_nil _ _)
    have hread : fragRead 0 c 2 = (c', [a, b]) := hread
    refine ⟨c', ?_, hat'⟩
    rw [if_pos (by decide), decodeDelta, if_neg (by decide)]
    simp only [hread, status_more hat' hrest]
    rfl

variable {valueSize optNum fuel num : Nat} {context : OptionContext} {optLen : BitVec 16}
  {de le v : List Byte}

theorem parseOption_stored {opt : Byte} {d : Nat}
    (hat : context.cursor.At (opt :: (de ++ (le ++ (v ++ rest))))) (hvne : v ++ rest ≠ [])
    (hopt : opt ≠ coapMarker) (hd : Extends (optionHeaderGetDelta opt) de d)
    (hl : Extends (optionHeaderGetLen opt) le v.length) (hv : v.length ≤ valueSize)
    (optLen : BitVec 16) :
    let delta := context.delta + BitVec.ofNat 16 d
    ∃ c, parseOption valueSize context true optLen =
        some ⟨!rest.isEmpty, ⟨delta, c⟩, some ⟨delta, v⟩,
          optLen + BitVec.ofNat 16 (1 + de.length + le.length + v.length)⟩ ∧ c.At rest := by
  intro delta
  have hlne := append_ne_nil_of_right_ne_nil le hvne
  have hdne := append_ne_nil_of_right_ne_nil de hlne
  obtain ⟨c1, h1, hat1⟩ := Cursor.At.read_append (x := [opt]) hat 0 (cons_ne_nil _ _)
  have h1 : fragRead 0 context.cursor 1 = (c1, [opt]) := h1
  have hmore := status_more hat1 hdne
  obtain ⟨c2, h2, hat2⟩ := hd.decode hat1 hlne
  obtain ⟨_, h3, hat3⟩ := hl.decode hat2 hvne
  obtain ⟨c4, h4, hat4⟩ := hat3.read_append 0 hvne
  have hfilter : (if coapOptionNoExt < optionHeaderGetDelta opt then
      (decodeDelta c1 (optionHeaderGetDelta opt)).filter fun d =>
        ¬ (d.status = .ended ∧ coapOptionNoExt < optionHeaderGetLen opt)
      else some ⟨c1, optionHeaderGetDelta opt, 0, .more⟩) = some ⟨c2, d, de.length, .more⟩ := by
    split
    · next hlt =>
      rw [if_pos hlt] at h2
      rw [h2]
      rfl
    · next hlt => rwa [if_neg hlt] at h2
  refine ⟨c4, ?_, hat4⟩
  unfold parseOption
  simp only [h1, hmore, getD_cons_zero, if_neg hopt, hfilter, bind_some, h3, h4, status_eq hat4]
  cases rest with
  | nil => simp [delta, hv]
  | cons b rest => simp [delta, hv]

theorem parseOption_marker (hat : context.cursor.At (coapMarker :: rest)) (hrest : rest ≠ [])
    (slot : Bool) (optLen : BitVec 16) :
    ∃ c, parseOption valueSize context slot optLen =
      some ⟨false, ⟨context.delta, c⟩, none, optLen + 1⟩ := by
  obtain ⟨c, hread, hat'⟩ := Cursor.At.read_append (x := [coapMarker]) hat 0 (cons_ne_nil _ _)
  have hread : fragRead 0 context.cursor 1 = (c, [coapMarker]) := hread
  refine ⟨c, ?_⟩
  unfold parseOption
  simp only [hread, status_more hat' hrest]
  rfl

theorem encodeExtendedOption_cases (num : Nat) : num < 13 ∧ encodeExtendedOption num = (num, 0, 0) ∨
      (13 ≤ num ∧ num < 269) ∧ encodeExtendedOption num = (13, num - 13, 1) ∨
      269 ≤ num ∧ encodeExtendedOption num = (14, num - 269, 2) := by
  rw [encodeExtendedOption]
  split
  · next hlt => exact .inl ⟨hlt, rfl⟩
  split
  · next hge hlt => exact .inr (.inl ⟨⟨Nat.not_lt.mp hge, hlt⟩, rfl⟩)
  · next hge => exact .inr (.inr ⟨Nat.not_lt.mp hge, rfl⟩)

theorem extends_encodeExtendedOption {num : Nat} (h : num < 65536) :
    Extends (encodeExtendedOption num).1 (extension (encodeExtendedOption num)) num := by
  rcases encodeExtendedOption_cases num with ⟨hlt, heq⟩ | ⟨hnum, heq⟩ | ⟨hge, heq⟩
  · rw [heq]
    exact .plain hlt
  · have hext := Extends.one (BitVec.ofNat 8 (num - 13))
    have hval : (BitVec.ofNat 8 (num - 13)).toNat + 13 = num := by
      rw [BitVec.toNat_ofNat]
      omega
    rw [heq]
    rwa [hval] at hext
  · have hext := Extends.two (BitVec.ofNat 8 ((num - 269) / 256)) (BitVec.ofNat 8 (num - 269))
    have hval : ((BitVec.ofNat 8 ((num - 269) / 256)).toNat * 256 +
        (BitVec.ofNat 8 (num - 269)).toNat + 269) % 65536 = num := by
      rw [BitVec.toNat_ofNat, BitVec.toNat_ofNat]
      omega
    rw [heq]
    rwa [hval] at hext

theorem extension_length (num : Nat) :
    (extension (encodeExtendedOption num)).length = (encodeExtendedOption num).2.2 := by
  rcases encodeExtendedOption_cases num with ⟨-, heq⟩ | ⟨-, heq⟩ | ⟨-, heq⟩ <;> rw [heq] <;> rfl

theorem encodeExtendedOption_fst_lt (num : Nat) : (encodeExtendedOption num).1 < 15 := by
  rcases encodeExtendedOption_cases num with ⟨hlt, heq⟩ | ⟨-, heq⟩ | ⟨-, heq⟩ <;>
    simp only [heq] <;> omega

theorem header_nibbles : ∀ a < 15, ∀ b < 15,
    let opt := optionHeaderSetLen (optionHeaderSetDelta a) b
    optionHeaderGetDelta opt = a ∧ optionHeaderGetLen opt = b ∧ opt ≠ coapMarker := by
  decide

theorem optionHeader_spec (m n : Nat) :
    let opt := optionHeader (encodeExtendedOption m) (encodeExtendedOption n)
    optionHeaderGetDelta opt = (encodeExtendedOption m).1 ∧
      optionHeaderGetLen opt = (encodeExtendedOption n).1 ∧ opt ≠ coapMarker :=
  header_nibbles _ (encodeExtendedOption_fst_lt m) _ (encodeExtendedOption_fst_lt n)

def Padded (last : BitVec 16) (o : CoapOption) : Prop :=
  269 ≤ (o.delta - last).toNat ∧ o.value.length < 13

instance Padded.instDecidable (last : BitVec 16) (o : CoapOption) : Decidable (Padded last o) :=
  inferInstanceAs (Decidable (_ ∧ _))

def totalLen (last : BitVec 16) : List CoapOption → Nat
  | [] => 0
  | o :: opts => optionLen (o.delta - last) o.value + totalLen o.delta opts

def NonePadded (last : BitVec 16) : List CoapOption → Prop
  | [] => True
  | o :: opts => ¬ Padded last o ∧ NonePadded o.delta opts

instance NonePadded.instDecidable (last : BitVec 16) :
    (opts : List CoapOption) → Decidable (NonePadded last opts)
  | [] => inferInstanceAs (Decidable True)
  | o :: opts =>
    have := instDecidable o.delta opts
    inferInstanceAs (Decidable (¬ Padded last o ∧ NonePadded o.delta opts))

def deltaCoded (last : BitVec 16) : List CoapOption → List Byte
  | [] => []
  | o :: opts => optionBytes (o.delta - last) o.value ++ deltaCoded o.delta opts

variable {o : CoapOption} {opts : List CoapOption}

theorem lenExtension_eq (hlen : o.value.length < 269) (h : ¬ Padded last o) :
    lenExtension (encodeExtendedOption (o.delta - last).toNat)
      (encodeExtendedOption o.value.length) = extension (encodeExtendedOption o.value.length) := by
  rcases encodeExtendedOption_cases o.value.length with ⟨hlt, heq⟩ | ⟨-, heq⟩ | ⟨hge, -⟩
  · have hd : (o.delta - last).toNat < 269 := Nat.not_le.mp fun hge => h ⟨hge, hlt⟩
    rw [heq]
    rcases encodeExtendedOption_cases (o.delta - last).toNat with ⟨-, hd'⟩ | ⟨-, hd'⟩ | ⟨hge, -⟩
    · rw [hd']
      rfl
    · rw [hd']
      rfl
    · omega
  · rw [heq]
    rfl
  · omega

theorem lenExtension_padded (h : Padded last o) :
    lenExtension (encodeExtendedOption (o.delta - last).toNat)
      (encodeExtendedOption o.value.length) = [0, 0] := by
  rcases encodeExtendedOption_cases o.value.length with ⟨-, heq⟩ | ⟨⟨hge, -⟩, -⟩ | ⟨hge, -⟩
  · rcases encodeExtendedOption_cases (o.delta - last).toNat with
      ⟨hlt, -⟩ | ⟨⟨-, hlt⟩, -⟩ | ⟨-, hd⟩
    · exact absurd h.1 (by omega)
    · exact absurd h.1 (by omega)
    · rw [heq, hd]
      simp [lenExtension, be16]
  · exact absurd h.2 (by omega)
  · exact absurd h.2 (by omega)

theorem optionBytes_length (hlen : o.value.length < 269) (h : ¬ Padded last o) :
    (optionBytes (o.delta - last) o.value).length = optionLen (o.delta - last) o.value := by
  rw [optionBytes, length_cons, length_append, length_append,
    lenExtension_eq hlen h, extension_length, extension_length, optionLen]
  omega

theorem optionLen_le_length (o : CoapOption) (last : BitVec 16)
    (h : (optionBytes (o.delta - last) o.value).length < 269) :
    optionLen (o.delta - last) o.value ≤ (optionBytes (o.delta - last) o.value).length := by
  by_cases hpad : Padded last o
  · have hplain : encodeExtendedOption o.value.length = (o.value.length, 0, 0) := if_pos hpad.2
    rw [optionBytes, length_cons, length_append, length_append, extension_length, optionLen, hplain]
    dsimp only
    omega
  · have hlen : o.value.length < 269 := by
      rw [optionBytes, length_cons, length_append, length_append] at h
      omega
    exact Nat.le_of_eq (optionBytes_length hlen hpad).symm

variable {len : Byte} {rx : List (List Byte)} {delta : BitVec 16}

theorem toNat_add_optionLen (h : len.toNat + optionLen delta value < 256) :
    (len + BitVec.ofNat 8 (optionLen delta value)).toNat = len.toNat + optionLen delta value := by
  rw [BitVec.toNat_add, BitVec.toNat_ofNat]
  omega

theorem add_optionLen_ne_zero (h : len.toNat + optionLen delta value < 256) :
    len + BitVec.ofNat 8 (optionLen delta value) ≠ 0 := by
  intro hzero
  have hlen := toNat_add_optionLen h
  have hzero' : (0 : Byte).toNat = 0 := rfl
  rw [hzero, optionLen] at hlen
  omega

theorem encoded_eq (hfirst : len = 0 → last = 0)
    (h : len.toNat + totalLen last opts < 256) : encoded len last opts = deltaCoded last opts := by
  induction opts generalizing len last with
  | nil => rfl
  | cons o opts ih =>
    rw [totalLen] at h
    have hlt : len.toNat + optionLen (o.delta - last) o.value < 256 := by omega
    rw [encoded, codedDelta_eq hfirst, BitVec.add_comm last, BitVec.sub_add_cancel, deltaCoded,
      ih (fun hzero => absurd hzero (add_optionLen_ne_zero hlt))
        (by rw [toNat_add_optionLen hlt]; omega)]

theorem totalLen_lt (hfirst : len = 0 → last = 0)
    (h : len.toNat + (encoded len last opts).length < 255) :
    len.toNat + totalLen last opts < 255 := by
  induction opts generalizing len last with
  | nil => exact h
  | cons o opts ih =>
    rw [encoded, codedDelta_eq hfirst, BitVec.add_comm last, BitVec.sub_add_cancel,
      length_append] at h
    have hle := optionLen_le_length o last (by omega)
    have hlt : len.toNat + optionLen (o.delta - last) o.value < 256 := by omega
    have hnext : len + BitVec.ofNat 8 (optionLen (o.delta - last) o.value) = 0 → o.delta = 0 :=
      fun hzero => absurd hzero (add_optionLen_ne_zero hlt)
    have hih := ih hnext (by rw [toNat_add_optionLen hlt]; omega)
    rw [toNat_add_optionLen hlt] at hih
    rw [totalLen]
    omega

theorem add_ofNat_toNat_sub (x y : BitVec 16) : x + BitVec.ofNat 16 (y - x).toNat = y := by
  rw [BitVec.ofNat_toNat, BitVec.setWidth_eq, BitVec.add_comm, BitVec.sub_add_cancel]

theorem parseOption_wire (hat : context.cursor.At (wireOption (o.delta - context.delta) o.value ++
      rest)) (hvalue : o.value.length ≤ valueSize) (hlen : o.value.length < 65536)
    (hne : o.value ++ rest ≠ []) (optLen : BitVec 16) :
    ∃ c, parseOption valueSize context true optLen = some ⟨!rest.isEmpty, ⟨o.delta, c⟩, some o,
        optLen + BitVec.ofNat 16 (optionLen (o.delta - context.delta) o.value)⟩ ∧ c.At rest := by
  obtain ⟨hdelta, hlen', hopt⟩ := optionHeader_spec (o.delta - context.delta).toNat o.value.length
  have hd := extends_encodeExtendedOption (o.delta - context.delta).isLt
  have hl := extends_encodeExtendedOption hlen
  rw [← hdelta] at hd
  rw [← hlen'] at hl
  simp only [wireOption, cons_append, append_assoc] at hat
  have hparse := parseOption_stored hat hne hopt hd hl hvalue optLen
  rwa [add_ofNat_toNat_sub, extension_length, extension_length] at hparse

section

variable (hat : context.cursor.At (optionBytes (o.delta - context.delta) o.value ++ rest))
  (hrest : rest ≠ []) (hvalue : o.value.length ≤ valueSize)

include hat hrest hvalue

theorem parseOption_plain (hlen : o.value.length < 269)
    (hplain : ¬ Padded context.delta o) (optLen : BitVec 16) :
    ∃ c, parseOption valueSize context true optLen = some ⟨true, ⟨o.delta, c⟩, some o,
          optLen + BitVec.ofNat 16 (optionLen (o.delta - context.delta) o.value)⟩ ∧ c.At rest := by
  rw [optionBytes, lenExtension_eq hlen hplain] at hat
  have hparse := parseOption_wire hat hvalue (by omega) (append_ne_nil_of_right_ne_nil _ hrest)
    optLen
  rwa [isEmpty_eq_false_iff.mpr hrest] at hparse

theorem parseOption_padded (hpad : Padded context.delta o) (optLen : BitVec 16) :
    ∃ c len, parseOption valueSize context true optLen =
        some ⟨true, ⟨o.delta, c⟩, some ⟨o.delta, (0 :: 0 :: o.value).take o.value.length⟩, len⟩ ∧
      c.At ((0 :: 0 :: o.value).drop o.value.length ++ rest) := by
  obtain ⟨hdelta, hlen', hopt⟩ :=
    optionHeader_spec (o.delta - context.delta).toNat o.value.length
  have hd := extends_encodeExtendedOption (o.delta - context.delta).isLt
  rw [← hdelta] at hd
  have htake : ((0 :: 0 :: o.value).take o.value.length).length = o.value.length := by
    rw [length_take, length_cons, length_cons]
    omega
  have hl : Extends (optionHeaderGetLen (optionHeader
      (encodeExtendedOption (o.delta - context.delta).toNat)
      (encodeExtendedOption o.value.length))) []
      ((0 :: 0 :: o.value).take o.value.length).length := by
    have heq : encodeExtendedOption o.value.length = (o.value.length, 0, 0) := if_pos hpad.2
    rw [hlen', htake, heq]
    exact .plain hpad.2
  have hsplit : 0 :: 0 :: (o.value ++ rest) = [] ++ ((0 :: 0 :: o.value).take o.value.length ++
      ((0 :: 0 :: o.value).drop o.value.length ++ rest)) := by
    rw [nil_append, ← append_assoc, take_append_drop, cons_append, cons_append]
  simp only [optionBytes, cons_append, append_assoc, lenExtension_padded hpad, nil_append] at hat
  rw [hsplit] at hat
  have hrest' := append_ne_nil_of_right_ne_nil ((0 :: 0 :: o.value).drop o.value.length) hrest
  obtain ⟨c, hparse, hat'⟩ := parseOption_stored hat (append_ne_nil_of_right_ne_nil _ hrest')
    hopt hd hl (htake ▸ hvalue) optLen
  rw [add_ofNat_toNat_sub, isEmpty_eq_false_iff.mpr hrest'] at hparse
  exact ⟨c, _, hparse, hat'⟩

end

theorem optionBytes_zero : optionBytes 0 [] = [0] := by decide

theorem parseOption_zero (hat : context.cursor.At (0 :: rest)) (hrest : rest ≠ [])
    (valueSize : Nat) (optLen : BitVec 16) :
    ∃ c len, parseOption valueSize context true optLen =
      some ⟨true, ⟨context.delta, c⟩, some ⟨context.delta, []⟩, len⟩ ∧ c.At rest := by
  have hnot : ¬ Padded context.delta ⟨context.delta, []⟩ := by
    simp [Padded]
  have hbytes : optionBytes (context.delta - context.delta) [] = [0] := by
    rw [BitVec.sub_self]
    exact optionBytes_zero
  have hat' : context.cursor.At (optionBytes (context.delta - context.delta) [] ++ rest) := by
    rw [hbytes]
    exact hat
  obtain ⟨c, hparse, hrest'⟩ := parseOption_plain (o := ⟨context.delta, []⟩) hat' hrest
    (Nat.zero_le valueSize) (by decide : 0 < 269) hnot optLen
  exact ⟨c, _, hparse, hrest'⟩

theorem deltaCoded_marker_ne : deltaCoded last opts ++ coapMarker :: payload ≠ [] :=
  append_ne_nil_of_right_ne_nil _ (cons_ne_nil _ _)

theorem parseLoop_succ {context' : OptionContext} {len l : BitVec 16} (hnum : num < optNum)
    (hparse : parseOption valueSize context true optLen = some ⟨true, context', some o, len⟩) :
    parseLoop valueSize optNum (fuel + 1) num context optLen = some (opts, l) ↔
      ∃ opts', o :: opts' = opts ∧
        parseLoop valueSize optNum fuel (num + 1) context' len = some (opts', l) := by
  rw [parseLoop, decide_eq_true hnum, hparse, bind_some, if_pos rfl, if_pos hnum, map_eq_some_iff]
  constructor
  · rintro ⟨⟨opts', _⟩, hrest, heq⟩
    obtain ⟨hopts, rfl⟩ := Prod.mk.inj heq
    exact ⟨opts', hopts, hrest⟩
  · rintro ⟨opts', rfl, hrest⟩
    exact ⟨(opts', l), hrest, rfl⟩

theorem parseLoop_deltaCoded (hat : context.cursor.At
      (deltaCoded context.delta opts ++ coapMarker :: payload)) (hpayload : payload ≠ [])
    (hvalue : ∀ o ∈ opts, o.value.length ≤ valueSize) (hlen : ∀ o ∈ opts, o.value.length < 269)
    (hplain : NonePadded context.delta opts) (hnum : num + opts.length ≤ optNum)
    (hfuel : opts.length < fuel) (optLen : BitVec 16) :
    parseLoop valueSize optNum fuel num context optLen =
      some (opts, optLen + BitVec.ofNat 16 (totalLen context.delta opts + 1)) := by
  induction opts generalizing fuel num context optLen with
  | nil =>
    obtain ⟨fuel, rfl⟩ : ∃ n, fuel = n + 1 := ⟨fuel - 1, by simp at hfuel; omega⟩
    obtain ⟨c, hparse⟩ := parseOption_marker hat hpayload (num < optNum) optLen
    rw [parseLoop, hparse]
    rfl
  | cons o opts ih =>
    rw [forall_mem_cons] at hvalue hlen
    rw [length_cons] at hnum hfuel
    obtain ⟨fuel, rfl⟩ : ∃ n, fuel = n + 1 := ⟨fuel - 1, by omega⟩
    rw [deltaCoded, append_assoc] at hat
    obtain ⟨c, hparse, hat'⟩ := parseOption_plain hat deltaCoded_marker_ne hvalue.1 hlen.1
      hplain.1 optLen
    refine (parseLoop_succ (by omega) hparse).mpr ⟨opts, rfl, ?_⟩
    rw [ih hat' hvalue.2 hlen.2 hplain.2 (by omega) (by omega), totalLen, BitVec.add_assoc,
      ← BitVec.ofNat_add, ← Nat.add_assoc]

theorem parseLoop_zeros_ne (k : Nat) (hat : context.cursor.At (replicate (k + 1) 0 ++
      (deltaCoded context.delta opts ++ coapMarker :: payload)))
    (hnum : num + opts.length < optNum) (l : BitVec 16) :
    parseLoop valueSize optNum fuel num context optLen ≠ some (opts, l) := by
  intro hparse
  induction opts generalizing fuel num context optLen with
  | nil =>
    cases fuel with
    | zero => cases hparse
    | succ fuel =>
      obtain ⟨c, len, hzero, -⟩ := parseOption_zero hat
        (append_ne_nil_of_right_ne_nil _ deltaCoded_marker_ne) valueSize optLen
      obtain ⟨opts', hopts, -⟩ :=
        (parseLoop_succ (Nat.lt_of_le_of_lt (Nat.le_add_right ..) hnum) hzero).mp hparse
      cases hopts
  | cons o opts ih =>
    rw [length_cons] at hnum
    cases fuel with
    | zero => cases hparse
    | succ fuel =>
      obtain ⟨c, len, hzero, hat'⟩ := parseOption_zero hat
        (append_ne_nil_of_right_ne_nil _ deltaCoded_marker_ne) valueSize optLen
      obtain ⟨opts', hopts, hrest⟩ := (parseLoop_succ (by omega) hzero).mp hparse
      obtain ⟨rfl, rfl⟩ := cons.inj hopts
      -- the option is one more zero byte, so there are as many in front of the others
      have hbytes : replicate k 0 ++
          (deltaCoded context.delta (⟨context.delta, []⟩ :: opts') ++ coapMarker :: payload) =
            replicate (k + 1) 0 ++ (deltaCoded context.delta opts' ++ coapMarker :: payload) := by
        rw [deltaCoded, BitVec.sub_self, replicate_succ', append_assoc, append_assoc]
        exact congrArg (replicate k 0 ++ ·) (congrArg (· ++ _) optionBytes_zero)
      exact ih (hbytes ▸ hat') (by omega) hrest

theorem eq_zeros_of_append {v w : List Byte} (h : 0 :: 0 :: v = v ++ w) : w = [0, 0] := by
  match v with
  | [] => exact h.symm
  | [a] =>
    obtain ⟨rfl, h⟩ := cons.inj h
    exact h.symm
  | a :: b :: v =>
    obtain ⟨rfl, h⟩ := cons.inj h
    obtain ⟨rfl, h⟩ := cons.inj h
    exact eq_zeros_of_append h

theorem nonePadded_of_parseLoop (hat : context.cursor.At
      (deltaCoded context.delta opts ++ coapMarker :: payload))
    (hvalue : ∀ o ∈ opts, o.value.length ≤ valueSize) (hlen : ∀ o ∈ opts, o.value.length < 269)
    (hnum : num + opts.length < optNum) {l : BitVec 16}
    (hparse : parseLoop valueSize optNum fuel num context optLen = some (opts, l)) :
    NonePadded context.delta opts := by
  induction opts generalizing fuel num context optLen with
  | nil => trivial
  | cons o opts ih =>
    rw [forall_mem_cons] at hvalue hlen
    rw [length_cons] at hnum
    rw [deltaCoded, append_assoc] at hat
    cases fuel with
    | zero => cases hparse
    | succ fuel =>
      by_cases hpad : Padded context.delta o
      · obtain ⟨c, _, hfirst, hat'⟩ := parseOption_padded hat deltaCoded_marker_ne hvalue.1
          hpad optLen
        obtain ⟨opts', hopts, hrest⟩ := (parseLoop_succ (by omega) hfirst).mp hparse
        obtain ⟨ho, rfl⟩ := cons.inj hopts
        have hvalue' : (0 :: 0 :: o.value).take o.value.length = o.value :=
          congrArg CoapOption.value ho
        have hsplit := take_append_drop o.value.length (0 :: 0 :: o.value)
        rw [hvalue'] at hsplit
        rw [eq_zeros_of_append hsplit.symm] at hat'
        exact absurd hrest (parseLoop_zeros_ne 1 hat' (by omega) l)
      · obtain ⟨c, hfirst, hat'⟩ := parseOption_plain hat deltaCoded_marker_ne hvalue.1
          hlen.1 hpad optLen
        obtain ⟨opts', hopts, hrest⟩ := (parseLoop_succ (by omega) hfirst).mp hparse
        obtain ⟨-, rfl⟩ := cons.inj hopts
        exact ⟨hpad, ih hat' hvalue.2 hlen.2 (by omega) hrest⟩

theorem Cursor.At.length_eq (h : c.At data) :
    (c.frags.headD []).length - c.pos + c.frags.tail.flatten.length = data.length := by
  rw [← h.bytes, length_drop]
  rcases h.pos with hlt | ⟨hnil, hpos⟩
  · cases hfrags : c.frags with
    | nil =>
      rw [hfrags] at hlt
      exact absurd hlt (Nat.not_lt_zero _)
    | cons frag rest =>
      rw [hfrags, headD_cons] at hlt
      rw [headD_cons, tail_cons, flatten_cons, length_append]
      omega
  · rw [hnil]
    simp

theorem and_header_tkl (ver type : Byte) (h : n ≤ 8) :
    (((ver &&& 0x3#8) <<< 6 ||| (type &&& 0x3#8) <<< 4 ||| (BitVec.ofNat 8 n &&& 0xF#8)) &&&
      0xF#8).toNat = n := by
  have hver : ∀ x : Byte, x <<< 6 &&& 0xF#8 = 0#8 := by decide
  have htype : ∀ x : Byte, x <<< 4 &&& 0xF#8 = 0#8 := by decide
  have hlen : ∀ n ≤ 8, (BitVec.ofNat 8 n &&& 0xF#8 &&& 0xF#8).toNat = n := by decide
  rw [BitVec.and_or_distrib_right, BitVec.and_or_distrib_right, hver, htype, BitVec.zero_or,
    BitVec.zero_or, hlen n h]

theorem header_length (m : Message) : (header m).length = 4 + m.token.2.length := by
  rw [header, length_append]
  rfl

theorem coapPacketParse_eq {pre body : List Byte}
    (hcut : ∀ f ∈ rx, f ≠ []) (hrx : rx.flatten = pre ++ (header m ++ body)) (hbody : body ≠ [])
    (htoken : m.token.2.length ≤ 8) (hlen : rx.flatten.length < 65536) (valueSize optNum : Nat) :
    ∃ c : Cursor Byte, c.At body ∧ coapPacketParse valueSize optNum pre.length rx =
      (parseLoop valueSize optNum (c.frags.flatten.length + 1) 0 ⟨0, c⟩ 0).map fun r =>
        ⟨(header m).length, r.2.setWidth 8, r.1⟩ := by
  have hheader : header m ++ body ≠ [] := append_ne_nil_of_right_ne_nil _ hbody
  have hstart := at_start hcut
  rw [hrx] at hstart
  obtain ⟨c1, h1, hat1⟩ := hstart.read_append 0 (append_ne_nil_of_right_ne_nil _ hheader)
  obtain ⟨c2, h2, hat2⟩ := hat1.read_append 0 hheader
  have htkl : getHeaderTkl c1 = m.token.2.length := by
    obtain ⟨c, hread, -⟩ := hat1.read 0 hheader (n := 1) (by
      rw [length_append, header_length]
      omega)
    rw [getHeaderTkl, hread]
    exact and_header_tkl m.ver m.type htoken
  have hpkt : getPktLen c1 = 4 + m.token.2.length + body.length := by
    rw [hrx, length_append, length_append, header_length] at hlen
    rw [getPktLen, Cursor.At.length_eq hat1, length_append, header_length,
      Nat.mod_eq_of_lt (by omega)]
  have hhdr : getHeaderLen c1 = some (header m).length := by
    rw [getHeaderLen, htkl, basicHeaderSize, if_neg (by omega), if_neg (by omega),
      if_neg (by omega), header_length]
  have hempty : ¬ rx.isEmpty := by
    rw [List.isEmpty_iff]
    rintro rfl
    exact append_ne_nil_of_right_ne_nil pre hheader hrx.symm
  refine ⟨c2, hat2, ?_⟩
  rw [coapPacketParse, if_neg hempty]
  simp only [h1, status_more hat1 hheader, hhdr, bind_some, parseOptions, h2,
    status_more hat2 hbody]

theorem value_length_le_totalLen (h : o ∈ opts) : o.value.length ≤ totalLen last opts := by
  induction opts generalizing last with
  | nil => cases h
  | cons p opts ih =>
    rw [totalLen, optionLen]
    rcases mem_cons.mp h with rfl | h
    · omega
    · have hle : o.value.length ≤ totalLen p.delta opts := ih h
      omega

theorem deltaCoded_length (hlen : ∀ o ∈ opts, o.value.length < 269)
    (h : NonePadded last opts) : (deltaCoded last opts).length = totalLen last opts := by
  induction opts generalizing last with
  | nil => rfl
  | cons o opts ih =>
    rw [forall_mem_cons] at hlen
    rw [deltaCoded, length_append, optionBytes_length hlen.1 h.1, ih hlen.2 h.2, totalLen]

theorem length_le_deltaCoded : opts.length ≤ (deltaCoded last opts).length := by
  induction opts generalizing last with
  | nil => exact Nat.le_refl _
  | cons o opts ih =>
    have hle : opts.length ≤ (deltaCoded o.delta opts).length := ih
    rw [deltaCoded, length_append, optionBytes, length_cons, length_cons]
    omega

theorem toNat_setWidth_ofNat (h : n < 255) :
    (BitVec.setWidth 8 (0 + BitVec.ofNat 16 (n + 1))).toNat = n + 1 := by
  simp
  omega

/-- The length of the options with the marker fits in a byte, and no option with a delta of 269 or
more has a value shorter than 13 bytes. -/
def Fits (opts : List CoapOption) : Prop := totalLen 0 opts < 255 ∧ NonePadded 0 opts

instance Fits.instDecidable (opts : List CoapOption) : Decidable (Fits opts) :=
  inferInstanceAs (Decidable (_ ∧ _))

def GivesBack (valueSize : Nat) (pre : List Byte) (rx : List (List Byte)) (m : Message)
    (optNum : Nat) : Prop :=
  ∃ r, coapPacketParse valueSize optNum pre.length rx = some r ∧ r.options = m.opts ∧
    rx.flatten.drop (pre.length + r.hdrLen + r.optLen.toNat) = m.payload.2

/-- Options come back, for every number of options that the caller has room for, exactly if they
fit. -/
theorem givesBack_iff_fits (hsize : 0 < size) (hempty : pkt.frags.flatten = [])
    (hwrite : writePacket size pkt m = some cpkt) (htoken : m.token.2.length ≤ 8)
    (hpayload : m.payload.2 ≠ []) (hvalue : ∀ o ∈ m.opts, o.value.length ≤ valueSize)
    {pre : List Byte} (hcut : ∀ f ∈ rx, f ≠ [])
    (hrx : rx.flatten = pre ++ cpkt.pkt.frags.flatten) (hlen : rx.flatten.length < 65536) :
    (∀ optNum, m.opts.length ≤ optNum → GivesBack valueSize pre rx m optNum) ↔ Fits m.opts := by
  rw [writePacket_flatten hsize hempty hwrite] at hrx
  have hbody : encoded 0 0 m.opts ++ coapMarker :: m.payload.2 ≠ [] :=
    append_ne_nil_of_right_ne_nil _ (cons_ne_nil _ _)
  have hzero : (0 : Byte) = 0 → (0 : BitVec 16) = 0 := fun _ => rfl
  have htotal : rx.flatten.length = pre.length + (header m).length +
      ((encoded 0 0 m.opts).length + 1) + m.payload.2.length := by
    rw [hrx]
    simp only [length_append, length_cons]
    omega
  have hcoded (hlt : totalLen 0 m.opts < 255) : encoded 0 0 m.opts = deltaCoded 0 m.opts :=
    encoded_eq hzero (by simpa using Nat.lt_succ_of_lt hlt)
  have hvalue' (hlt : totalLen 0 m.opts < 255) (o : CoapOption) (ho : o ∈ m.opts) :
      o.value.length < 269 := by
    have hle : o.value.length ≤ totalLen 0 m.opts := value_length_le_totalLen ho
    omega
  constructor
  · intro h
    obtain ⟨r, hparse, hopts, hpoint⟩ := h (m.opts.length + 1) (Nat.le_succ _)
    obtain ⟨c, hat, heq⟩ :=
      coapPacketParse_eq hcut hrx hbody htoken hlen valueSize (m.opts.length + 1)
    rw [heq] at hparse
    obtain ⟨⟨opts, l⟩, hloop, rfl⟩ := map_eq_some_iff.mp hparse
    obtain rfl : opts = m.opts := hopts
    have hshort : (encoded 0 0 m.opts).length < 255 := by
      have hlen' := congrArg length hpoint
      rw [length_drop] at hlen'
      dsimp only at hlen'
      omega
    have hlt := totalLen_lt hzero (by simpa using hshort)
    have hlt : totalLen 0 m.opts < 255 := by simpa using hlt
    rw [hcoded hlt] at hat
    exact ⟨hlt, nonePadded_of_parseLoop hat hvalue (hvalue' hlt) (by omega) hloop⟩
  · rintro ⟨hlt, hplain⟩ optNum hnum
    obtain ⟨c, hat, heq⟩ := coapPacketParse_eq hcut hrx hbody htoken hlen valueSize optNum
    rw [hcoded hlt] at hat hrx
    have hfuel : m.opts.length < c.frags.flatten.length + 1 := by
      have hle : m.opts.length ≤ (deltaCoded 0 m.opts).length := length_le_deltaCoded
      have hbytes := congrArg length hat.bytes
      rw [length_drop, length_append] at hbytes
      omega
    rw [parseLoop_deltaCoded hat hpayload hvalue (hvalue' hlt) hplain (by omega) hfuel 0] at heq
    refine ⟨_, heq, rfl, ?_⟩
    have hoptLen : (BitVec.setWidth 8 (0 + BitVec.ofNat 16 (totalLen 0 m.opts + 1))).toNat =
        (deltaCoded 0 m.opts).length + 1 := by
      rw [deltaCoded_length (hvalue' hlt) hplain, toNat_setWidth_ofNat hlt]
    rw [hrx]
    rw [hoptLen, ← append_assoc, ← append_assoc, append_cons]
    exact drop_left' (by simp [Nat.add_assoc])

def threeOptions : Message where
  ver := 1
  type := 0
  token := (1, [7, 8])
  code := 1
  id := 77
  options := [(1, ⟨11, [97, 98, 99]⟩), (1, ⟨11, []⟩), (2, ⟨300, replicate 13 5⟩)]
  payload := (1, [1, 2])

def emptyPkt : Pkt Byte := ⟨[[]], some 100⟩

theorem threeOptions_written : (writePacket 16 emptyPkt threeOptions).isSome := by decide +kernel

def threeOptionsPacket : CoapPacket :=
  (writePacket 16 emptyPkt threeOptions).get threeOptions_written

theorem threeOptions_givesBack : GivesBack 13 [6, 6]
    ([6] :: [6] :: threeOptionsPacket.pkt.frags.flatten.map fun b => [b]) threeOptions 3 :=
  (givesBack_iff_fits (by decide : 0 < 16) rfl (some_get threeOptions_written).symm
    (by decide) (by decide) (by decide) (by decide +kernel) (by decide +kernel)
    (by decide +kernel)).mpr (by decide +kernel) 3 (by decide)

def shortValue : Message where
  ver := 1
  type := 0
  token := (0, [])
  code := 1
  id := 77
  options := [(1, ⟨300, [1]⟩)]
  payload := (1, [9])

theorem shortValue_not_parsed : ∃ cpkt, writePacket 64 emptyPkt shortValue = some cpkt ∧
    coapPacketParse 12 4 0 cpkt.pkt.frags = none :=
  ⟨_, rfl, by decide +kernel⟩

end Zephyr.Coap
