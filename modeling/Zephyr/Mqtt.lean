import Mathlib

/-! The functions of `mqtt_pkt.c` that take a packet apart. A packet is the memory from its first
byte on, together with the length that is passed. The checks look at the remaining length and at
the length of each string, but not at the fixed fields between them. -/

namespace Zephyr.Mqtt

abbrev Byte := BitVec 8

inductive Err where
  | einval
  | enomem
deriving DecidableEq

structure Field where
  pos : Nat
  len : Nat
deriving DecidableEq

variable (buf : Nat → Byte)

def ntohs (pos : Nat) : Nat := (buf pos).toNat * 256 + (buf (pos + 1)).toNat

def sub16 (a b : Nat) : Nat := (a + 65536 - b) % 65536

def rlenLoop (buf : Nat → Byte) (size : Nat) : Nat → Nat → Nat → Nat → Option (Nat × Nat)
  | 0, _, _, _ => none
  | fuel + 1, i, value, mult =>
    if 4 ≤ i ∨ size ≤ i then none
    else
      let encoded := buf (1 + i)
      let value := value + (encoded &&& 127#8).toNat * mult
      if encoded &&& 128#8 ≠ 0 then rlenLoop buf size fuel (i + 1) value (mult * 128)
      else some (value, i + 1)

variable (length : Nat)

def rlenDecode : Option (Nat × Nat) :=
  rlenLoop buf (sub16 length 1) 5 0 0 1

def recoverValueLen (pos length : Nat) : Option Field :=
  if length < 2 then none
  else if length < 2 + ntohs buf pos then none
  else some ⟨pos + 2, ntohs buf pos⟩

structure ConnectMsg where
  cleanSession : Bool
  clientId : Field
  willFlag : Bool
  willQos : Nat
  willRetain : Bool
  willTopic : Option Field
  willMsg : Option Field
  keepAlive : Nat
  userName : Option Field
  password : Option Field

def connectField (length offset : Nat) : Except Err (Field × Nat) :=
  match recoverValueLen buf offset (sub16 length offset) with
  | none => .error .einval
  | some field => .ok (field, (offset + 2 + field.len) % 256)

def connectOption (present : Bool) (buf : Nat → Byte) (length offset : Nat) :
    Except Err (Option Field × Nat) :=
  if present then (connectField buf length offset).map fun r => (some r.1, r.2)
  else .ok (none, offset)

def connectPayload (length offset : Nat) (flags : Byte) (keepAlive : Nat) : Except Err ConnectMsg :=
  let willFlag : Bool := flags &&& 0x04#8 ≠ 0
  (connectField buf length offset).bind fun (clientId, offset) =>
  (connectOption willFlag buf length offset).bind fun (willTopic, offset) =>
  (connectOption willFlag buf length offset).bind fun (willMsg, offset) =>
  (connectOption (flags &&& 0x80#8 ≠ 0) buf length offset).bind fun (userName, offset) =>
  (connectOption (flags &&& 0x40#8 ≠ 0) buf length offset).bind fun (password, _) =>
  .ok {
    cleanSession := flags &&& 0x02#8 ≠ 0
    clientId
    willFlag
    willQos := ((flags &&& 0x18#8) >>> 3).toNat
    willRetain := flags &&& 0x20#8 ≠ 0
    willTopic
    willMsg
    keepAlive
    userName
    password }

def IsMqtt (offset : Nat) : Prop :=
  buf offset = 0x00#8 ∧ buf (offset + 1) = 0x04#8 ∧ buf (offset + 2) = 0x4D#8 ∧
    buf (offset + 3) = 0x51#8 ∧ buf (offset + 4) = 0x54#8 ∧ buf (offset + 5) = 0x54#8 ∧
    buf (offset + 6) = 0x04#8

instance IsMqtt.instDecidable (buf : Nat → Byte) (offset : Nat) : Decidable (IsMqtt buf offset) :=
  inferInstanceAs (Decidable (_ ∧ _))

def mqttUnpackConnect : Except Err ConnectMsg :=
  if length < 12 then .error .einval
  else if buf 0 ≠ 0x10#8 then .error .einval
  else
    match rlenDecode buf length with
    | none => .error .enomem
    | some (rlen, rlenSize) =>
      if length < 1 + rlen + rlenSize then .error .einval
      else if ¬ IsMqtt buf (1 + rlenSize) then .error .einval
      else
        let offset := 1 + rlenSize + 2 + 5
        let flags := buf offset
        if flags &&& 0x01#8 ≠ 0 then .error .einval
        else connectPayload buf length (offset + 1 + 2) flags (ntohs buf (offset + 1))

structure PublishMsg where
  dup : Nat
  qos : Nat
  retain : Nat
  pktId : Nat
  topic : Field
  msg : Field

def mqttUnpackPublish : Except Err PublishMsg :=
  if buf 0 >>> 4 ≠ 0x03#8 then .error .einval
  else
    let qos := ((buf 0 &&& 0x06#8) >>> 1).toNat
    match rlenDecode buf length with
    | none => .error .einval
    | some (rmlen, rmlenSize) =>
      if length < 1 + rmlenSize + rmlen then .error .einval
      else
        let offset := 1 + rmlenSize
        let topicLen := ntohs buf offset
        let offset := offset + 2
        if length < offset + topicLen then .error .einval
        else
          let topic : Field := ⟨offset, topicLen⟩
          let offset := offset + topicLen
          let withId : Bool := qos = 1 ∨ qos = 2
          let pktId := if withId then ntohs buf offset else 0
          let offset := if withId then (offset + 2) % 65536 else offset
          .ok {
            dup := ((buf 0 &&& 0x08#8) >>> 3).toNat
            qos
            retain := (buf 0 &&& 0x01#8).toNat
            pktId
            topic
            msg := ⟨offset, sub16 length offset⟩ }

structure SubscribeMsg where
  pktId : Nat
  topics : List (Field × Byte)

def subscribeLoop (buf : Nat → Byte) (length : Nat) : Nat → Nat → Except Err (List (Field × Byte))
  | 0, _ => .ok []
  | elements + 1, offset =>
    if length < offset + 4 then .error .einval
    else
      let topicLen := ntohs buf offset
      let offset := offset + 2
      if length < offset + topicLen + 1 then .error .einval
      else
        let topic : Field × Byte := (⟨offset, topicLen⟩, buf (offset + topicLen))
        let offset := offset + topicLen + 1
        if offset = length then .ok [topic]
        else (subscribeLoop buf length elements offset).map (topic :: ·)

def mqttUnpackSubscribe (length elements : Nat) : Except Err SubscribeMsg :=
  match rlenDecode buf length with
  | none => .error .einval
  | some (rmlen, rmlenSize) =>
    if length < 1 + rmlenSize + rmlen then .error .einval
    else if rmlen < 2 + 4 then .error .einval
    else if buf 0 ≠ 0x82#8 then .error .einval
    else
      let offset := 1 + rmlenSize
      (subscribeLoop buf length elements (offset + 2)).map fun topics =>
        ⟨ntohs buf offset, topics⟩

structure SubackMsg where
  pktId : Nat
  items : Field
  grantedQos : List Byte

def subackLoop (buf : Nat → Byte) : Nat → Nat → Except Err (List Byte)
  | 0, _ => .ok []
  | items + 1, offset =>
    let qos := buf offset
    if 2#8 < qos then .error .einval
    else (subackLoop buf items (offset + 1)).map (qos :: ·)

def mqttUnpackSuback (length elements : Nat) : Except Err SubackMsg :=
  if elements = 0 then .error .einval
  else if buf 0 ≠ 0x90#8 then .error .einval
  else
    match rlenDecode buf length with
    | none => .error .einval
    | some (rlen, rlenSize) =>
      if length < 1 + rlen + rlenSize then .error .einval
      else
        let offset := 1 + rlenSize
        let items := (rlen + 256 - 2) % 256
        if elements < items then .error .einval
        else
          (subackLoop buf items (offset + 2)).map fun grantedQos =>
            ⟨ntohs buf offset, ⟨offset + 2, items⟩, grantedQos⟩

open List

variable {buf buf' : Nat → Byte} {length offset elements n : Nat}

def Agree (n : Nat) (buf buf' : Nat → Byte) : Prop := ∀ i < n, buf' i = buf i

def Field.Inside (length : Nat) (field : Field) : Prop := field.pos + field.len ≤ length

structure Safe {M : Type} (right : M → Prop) (unpack : (Nat → Byte) → Except Err M)
    (buf : Nat → Byte) (length : Nat) : Prop where
  reported : ∀ msg, unpack buf = .ok msg → right msg
  unaffected : ∀ buf', Agree length buf buf' → unpack buf' = unpack buf

def withTail (buf : Nat → Byte) (length : Nat) (tail : Nat → Byte) : Nat → Byte :=
  fun i => if i < length then buf i else tail i

theorem withTail_agree (buf : Nat → Byte) (length : Nat) (tail : Nat → Byte) :
    Agree length buf (withTail buf length tail) :=
  fun _ hi => if_pos hi

variable {M N : Type} {right : M → Prop} {right' : N → Prop} {f : (Nat → Byte) → Except Err M}

theorem Safe.same (h : Safe right f buf length) (tail tail' : Nat → Byte) :
    f (withTail buf length tail) = f (withTail buf length tail') :=
  (h.unaffected _ (withTail_agree buf length tail)).trans
    (h.unaffected _ (withTail_agree buf length tail')).symm

/-- A message is not safe to unpack where one byte behind its end is read back from the result. -/
theorem not_safe_of_tail (tail : Byte → Nat → Byte) (g : M → Nat)
    (h : ∀ low, ∃ msg, f (withTail buf length (tail low)) = .ok msg ∧ g msg % 256 = low.toNat) :
    ¬ Safe right f buf length := by
  intro hsafe
  obtain ⟨msg, hmsg, hlow⟩ := h 0#8
  obtain ⟨_, hmsg', hlow'⟩ := h 1#8
  have heq := Except.ok.inj (hmsg.symm.trans ((hsafe.same _ _).trans hmsg'))
  rw [heq, hlow'] at hlow
  exact absurd hlow (by decide)

theorem Safe.ok (msg : M) (h : right msg) : Safe right (fun _ => .ok msg) buf length where
  reported := by
    rintro _ ⟨⟩
    exact h
  unaffected _ _ := rfl

theorem Safe.error (e : Err) : Safe right (fun _ => .error e) buf length :=
  ⟨nofun, fun _ _ => rfl⟩

theorem Safe.bind {g : M → (Nat → Byte) → Except Err N} (h : Safe right f buf length)
    (hg : ∀ a, right a → Safe right' (g a) buf length) :
    Safe right' (fun buf => (f buf).bind fun a => g a buf) buf length := by
  cases ha : f buf with
  | error e =>
    constructor
    · rw [ha]
      exact nofun
    · intro buf' hagree
      rw [h.unaffected buf' hagree, ha]
      rfl
  | ok a =>
    have hsafe := hg a (h.reported a ha)
    constructor
    · rw [ha]
      exact hsafe.reported
    · intro buf' hagree
      rw [h.unaffected buf' hagree, ha]
      exact hsafe.unaffected buf' hagree

theorem Safe.map (h : Safe right f buf length) (g : M → N) (hg : ∀ a, right a → right' (g a)) :
    Safe right' (fun buf => (f buf).map g) buf length :=
  h.bind fun a ha => .ok _ (hg a ha)

theorem Safe.of_agree {g : (Nat → Byte) → Except Err M} (h : Safe right g buf length)
    (heq : ∀ buf', Agree length buf buf' → f buf' = g buf') : Safe right f buf length := by
  have hself := heq buf fun _ _ => rfl
  refine ⟨fun msg hok => h.reported msg (hself.symm.trans hok), fun buf' hagree => ?_⟩
  rw [heq buf' hagree, h.unaffected buf' hagree, hself]

theorem Agree.symm (h : Agree n buf buf') : Agree n buf' buf := fun i hi => (h i hi).symm

theorem Agree.ntohs (h : Agree n buf buf') (hp : offset + 1 < n) :
    ntohs buf' offset = ntohs buf offset := by
  unfold Mqtt.ntohs
  rw [h offset (by omega), h (offset + 1) hp]

theorem sub16_eq {a b : Nat} (h : b ≤ a) (ha : a < 65536) : sub16 a b = a - b := by
  unfold sub16
  omega

theorem rlenLoop_congr {size : Nat} (h : Agree (1 + size) buf buf') (fuel i value mult : Nat) :
    rlenLoop buf' size fuel i value mult = rlenLoop buf size fuel i value mult := by
  induction fuel generalizing i value mult with
  | zero => rfl
  | succ fuel ih =>
    simp only [rlenLoop]
    by_cases hi : 4 ≤ i ∨ size ≤ i
    · rw [if_pos hi, if_pos hi]
    · rw [if_neg hi, if_neg hi, h (1 + i) (by omega), ih]

theorem rlenLoop_size {size rlen k : Nat} (fuel i value mult : Nat)
    (h : rlenLoop buf size fuel i value mult = some (rlen, k)) : i < k ∧ k ≤ 4 ∧ k ≤ size := by
  induction fuel generalizing i value mult with
  | zero => cases h
  | succ fuel ih =>
    simp only [rlenLoop] at h
    split_ifs at h with hi hmore
    · have hk := ih _ _ _ h
      omega
    · cases h
      omega

theorem rlenDecode_congr (hpos : 0 < length) (hlen : length < 65536)
    (h : Agree length buf buf') : rlenDecode buf' length = rlenDecode buf length := by
  apply rlenLoop_congr
  rwa [sub16_eq hpos hlen, Nat.add_sub_cancel' hpos]

theorem rlenDecode_size {rlen size : Nat} (h : rlenDecode buf length = some (rlen, size)) :
    1 ≤ size ∧ size ≤ 4 ∧ size ≤ sub16 length 1 :=
  rlenLoop_size _ _ _ _ h

def ConnectMsg.fields (msg : ConnectMsg) : List Field :=
  msg.clientId :: (msg.willTopic.toList ++ msg.willMsg.toList ++ msg.userName.toList ++
    msg.password.toList)

theorem connectField_safe (hoff : offset ≤ length) (hlen : length < 65536) :
    Safe (fun r => r.1.Inside length ∧ r.2 ≤ length) (connectField · length offset) buf length := by
  unfold connectField recoverValueLen
  rw [sub16_eq hoff hlen]
  by_cases h2 : length - offset < 2
  · simp only [if_pos h2]
    exact .error _
  constructor
  · intro r h
    split_ifs at h with hval
    cases h
    refine ⟨?_, Nat.le_trans (Nat.mod_le _ _) ?_⟩ <;> simp only [Field.Inside] <;> omega
  · intro buf' h
    rw [h.ntohs (by omega)]

theorem connectOption_safe (present : Bool) (hoff : offset ≤ length) (hlen : length < 65536) :
    Safe (fun r => (∀ f ∈ r.1.toList, f.Inside length) ∧ r.2 ≤ length)
      (connectOption present · length offset) buf length := by
  cases present with
  | false => exact .ok _ ⟨nofun, hoff⟩
  | true => exact (connectField_safe hoff hlen).map _ fun r hr => by simpa using hr

theorem connectPayload_safe (flags : Byte) (keepAlive : Nat) (hoff : offset ≤ length)
    (hlen : length < 65536) :
    Safe (fun msg => ∀ f ∈ msg.fields, f.Inside length)
      (connectPayload · length offset flags keepAlive) buf length := by
  refine (connectField_safe hoff hlen).bind fun ⟨clientId, o₁⟩ h₁ => ?_
  refine (connectOption_safe _ h₁.2 hlen).bind fun ⟨willTopic, o₂⟩ h₂ => ?_
  refine (connectOption_safe _ h₂.2 hlen).bind fun ⟨willMsg, o₃⟩ h₃ => ?_
  refine (connectOption_safe _ h₃.2 hlen).bind fun ⟨userName, o₄⟩ h₄ => ?_
  refine (connectOption_safe _ h₄.2 hlen).bind fun ⟨password, o₅⟩ h₅ => .ok _ ?_
  simp only [ConnectMsg.fields, forall_mem_cons, forall_mem_append]
  exact ⟨h₁.1, ⟨⟨h₂.1, h₃.1⟩, h₄.1⟩, h₅.1⟩

structure ConnectHeader (buf : Nat → Byte) (length rlen rlenSize : Nat) : Prop where
  long : 12 ≤ length
  type : buf 0 = 0x10#8
  decoded : rlenDecode buf length = some (rlen, rlenSize)
  fits : 1 + rlen + rlenSize ≤ length
  protocol : IsMqtt buf (1 + rlenSize)

theorem IsMqtt.congr (h : Agree n buf buf') (ho : offset + 6 < n) :
    IsMqtt buf' offset ↔ IsMqtt buf offset := by
  unfold IsMqtt
  rw [h offset (by omega), h (offset + 1) (by omega), h (offset + 2) (by omega),
    h (offset + 3) (by omega), h (offset + 4) (by omega), h (offset + 5) (by omega),
    h (offset + 6) ho]

variable {rlen rlenSize : Nat}

theorem ConnectHeader.congr (hlen : length < 65536)
    (h : Agree length buf buf') (hh : ConnectHeader buf length rlen rlenSize) :
    ConnectHeader buf' length rlen rlenSize := by
  have hlong := hh.long
  have hsize := rlenDecode_size hh.decoded
  exact {
    long := hh.long
    type := (h 0 (by omega)).trans hh.type
    decoded := (rlenDecode_congr (by omega) hlen h).trans hh.decoded
    fits := hh.fits
    protocol := (IsMqtt.congr h (by omega)).mpr hh.protocol }

theorem ConnectHeader.unpack (h : ConnectHeader buf length rlen rlenSize) :
    mqttUnpackConnect buf length =
      if buf (8 + rlenSize) &&& 0x01#8 ≠ 0 then .error .einval
      else connectPayload buf length (11 + rlenSize) (buf (8 + rlenSize))
        (ntohs buf (9 + rlenSize)) := by
  have h8 : 1 + rlenSize + 2 + 5 = 8 + rlenSize := by omega
  have h11 : 8 + rlenSize + 1 + 2 = 11 + rlenSize := by omega
  have h9 : 8 + rlenSize + 1 = 9 + rlenSize := by omega
  have hfits := h.fits
  simp only [mqttUnpackConnect, h.decoded]
  rw [if_neg (by have := h.long; omega), if_neg (by simp [h.type]), if_neg (by omega),
    if_neg (by simpa using h.protocol), h8, h11, h9]

theorem connect_refused (hlen : length < 65536)
    (hno : ∀ rlen rlenSize, ¬ ConnectHeader buf length rlen rlenSize) :
    ∃ e, ∀ buf', Agree length buf buf' → mqttUnpackConnect buf' length = .error e := by
  by_cases hlong : length < 12
  · exact ⟨.einval, fun _ _ => if_pos hlong⟩
  by_cases htype : buf 0 ≠ 0x10#8
  · refine ⟨.einval, fun buf' h => ?_⟩
    unfold mqttUnpackConnect
    rw [if_neg hlong, if_pos (by rwa [h 0 (by omega)])]
  rw [not_not] at htype
  cases hdec : rlenDecode buf length with
  | none =>
    refine ⟨.enomem, fun buf' h => ?_⟩
    unfold mqttUnpackConnect
    rw [rlenDecode_congr (by omega) hlen h, hdec, if_neg hlong,
      if_neg (by rw [h 0 (by omega), htype]; simp)]
  | some found =>
    obtain ⟨rlen, rlenSize⟩ := found
    refine ⟨.einval, fun buf' h => ?_⟩
    have hsize := rlenDecode_size hdec
    unfold mqttUnpackConnect
    rw [rlenDecode_congr (by omega) hlen h, hdec, if_neg hlong,
      if_neg (by rw [h 0 (by omega), htype]; simp)]
    by_cases hfits : length < 1 + rlen + rlenSize
    · exact if_pos hfits
    · dsimp only
      rw [if_neg hfits]
      apply if_pos
      intro hp
      exact hno rlen rlenSize {
        long := by omega
        type := htype
        decoded := hdec
        fits := by omega
        protocol := (IsMqtt.congr h (by omega)).mp hp }

def ConnectCut (buf : Nat → Byte) (length : Nat) : Prop :=
  ∃ rlen rlenSize, ConnectHeader buf length rlen rlenSize ∧ length < 11 + rlenSize ∧
    (8 + rlenSize < length → buf (8 + rlenSize) &&& 0x01#8 = 0)

theorem connect_safe (hlen : length < 65536) (hcut : ¬ ConnectCut buf length) :
    Safe (fun msg => ∀ f ∈ msg.fields, f.Inside length) (mqttUnpackConnect · length) buf
      length := by
  by_cases hh : ∃ rlen rlenSize, ConnectHeader buf length rlen rlenSize
  · obtain ⟨rlen, rlenSize, hh⟩ := hh
    by_cases hin : 8 + rlenSize < length ∧ buf (8 + rlenSize) &&& 0x01#8 ≠ 0
    · refine .of_agree (.error .einval) fun buf' h => ?_
      rw [(hh.congr hlen h).unpack, h _ hin.1, if_pos hin.2]
    · have hlong : 11 + rlenSize ≤ length := by
        by_contra hshort
        exact hcut ⟨rlen, rlenSize, hh, by omega, fun hlt => not_not.mp fun hflag =>
          hin ⟨hlt, hflag⟩⟩
      refine .of_agree (connectPayload_safe (buf (8 + rlenSize)) (ntohs buf (9 + rlenSize)) hlong
        hlen) fun buf' h => ?_
      rw [(hh.congr hlen h).unpack, h (8 + rlenSize) (by omega), h.ntohs (by omega), if_neg]
      exact fun hflag => hin ⟨by omega, hflag⟩
  · obtain ⟨e, hrefused⟩ := connect_refused hlen fun rlen rlenSize h => hh ⟨rlen, rlenSize, h⟩
    exact .of_agree (.error e) hrefused

theorem connectField_behind (hoff : length < offset) (hnear : offset ≤ length + 60)
    (hsmall : offset < 200) (h0 : buf offset = 0) (h1 : buf (offset + 1) = 0) :
    connectField buf length offset = .ok (⟨offset + 2, 0⟩, offset + 2) := by
  have hntohs : ntohs buf offset = 0 := by simp [ntohs, h0, h1]
  have hsub : 60000 < sub16 length offset := by
    unfold sub16
    omega
  unfold connectField recoverValueLen
  rw [hntohs, if_neg (by omega), if_neg (by omega)]
  simp only [Nat.add_zero]
  rw [Nat.mod_eq_of_lt (by omega)]

theorem connectOption_behind (present : Bool) (hoff : length < offset)
    (hnear : offset ≤ length + 60) (hsmall : offset < 200) (hzero : ∀ i, offset ≤ i → buf i = 0) :
    ∃ field next, connectOption present buf length offset = .ok (field, next) ∧
      offset ≤ next ∧ next ≤ offset + 2 := by
  cases present with
  | false => exact ⟨none, offset, rfl, le_rfl, by omega⟩
  | true =>
    refine ⟨some ⟨offset + 2, 0⟩, offset + 2, ?_, by omega, le_rfl⟩
    unfold connectOption
    rw [connectField_behind hoff hnear hsmall (hzero _ le_rfl) (hzero _ (by omega))]
    rfl

theorem connectPayload_behind (flags : Byte) (keepAlive : Nat) (hoff : length < offset)
    (hnear : offset ≤ length + 40) (hsmall : offset < 150) (hzero : ∀ i, offset ≤ i → buf i = 0) :
    ∃ msg, connectPayload buf length offset flags keepAlive = .ok msg ∧
      msg.keepAlive = keepAlive := by
  have hz : ∀ o, offset ≤ o → ∀ i, o ≤ i → buf i = 0 := fun o ho i hi => hzero i (by omega)
  have h₁ := connectField_behind hoff (by omega) (by omega) (hzero _ le_rfl)
    (hzero (offset + 1) (by omega))
  obtain ⟨_, o₂, h₂, _, _⟩ := connectOption_behind (flags &&& 0x04#8 ≠ 0)
    (by omega : length < offset + 2) (by omega) (by omega) (hz _ (by omega))
  obtain ⟨_, o₃, h₃, _, _⟩ := connectOption_behind (flags &&& 0x04#8 ≠ 0)
    (by omega : length < o₂) (by omega) (by omega) (hz _ (by omega))
  obtain ⟨_, o₄, h₄, _, _⟩ := connectOption_behind (flags &&& 0x80#8 ≠ 0)
    (by omega : length < o₃) (by omega) (by omega) (hz _ (by omega))
  obtain ⟨_, _, h₅, _, _⟩ := connectOption_behind (flags &&& 0x40#8 ≠ 0)
    (by omega : length < o₄) (by omega) (by omega) (hz _ (by omega))
  unfold connectPayload
  simp only [h₁, Except.bind, h₂, h₃, h₄, h₅]
  exact ⟨_, rfl, rfl⟩

theorem connect_unsafe (hlen : length < 65536) (hcut : ConnectCut buf length)
    {right : ConnectMsg → Prop} : ¬ Safe right (mqttUnpackConnect · length) buf length := by
  obtain ⟨_, rlenSize, hh, hshort, hflag⟩ := hcut
  have hsize := rlenDecode_size hh.decoded
  -- the low byte of the keep alive time stands behind the end of the packet
  refine not_safe_of_tail (fun low i => if i = 10 + rlenSize then low else 0)
    ConnectMsg.keepAlive fun low => ?_
  generalize htail : withTail buf length (fun i => if i = 10 + rlenSize then low else 0) = buf'
  have hagree : Agree length buf buf' := htail ▸ withTail_agree buf length _
  have hbehind : ∀ i, length ≤ i → buf' i = if i = 10 + rlenSize then low else 0 := by
    intro i hi
    rw [← htail]
    exact if_neg (by omega)
  have hflag' : ¬ buf' (8 + rlenSize) &&& 0x01#8 ≠ 0 := by
    rw [not_not]
    by_cases hlt : 8 + rlenSize < length
    · rw [hagree _ hlt]
      exact hflag hlt
    · rw [hbehind _ (by omega), if_neg (by omega)]
      rfl
  rw [(hh.congr hlen hagree).unpack, if_neg hflag']
  have hzero : ∀ i, 11 + rlenSize ≤ i → buf' i = 0 := by
    intro i hi
    rw [hbehind i (by omega), if_neg (by omega)]
  obtain ⟨msg, hmsg, hkeep⟩ := connectPayload_behind (buf' (8 + rlenSize))
    (ntohs buf' (9 + rlenSize)) hshort (by omega) (by omega) hzero
  refine ⟨msg, hmsg, ?_⟩
  have hlow : buf' (9 + rlenSize + 1) = low := by
    rw [hbehind _ (by omega), if_pos (by omega)]
  rw [hkeep, ntohs, hlow]
  omega

structure PublishHeader (buf : Nat → Byte) (length rmlen rmlenSize : Nat) : Prop where
  type : buf 0 >>> 4 = 0x03#8
  decoded : rlenDecode buf length = some (rmlen, rmlenSize)
  fits : 1 + rmlenSize + rmlen ≤ length
  topic : 3 + rmlenSize + ntohs buf (1 + rmlenSize) ≤ length

def withId (buf : Nat → Byte) : Bool :=
  ((buf 0 &&& 0x06#8) >>> 1).toNat = 1 ∨ ((buf 0 &&& 0x06#8) >>> 1).toNat = 2

theorem PublishHeader.congr {rmlen rmlenSize : Nat} (hlen : length < 65536)
    (h : Agree length buf buf') (hh : PublishHeader buf length rmlen rmlenSize) :
    PublishHeader buf' length rmlen rmlenSize := by
  have htopic := hh.topic
  exact {
    type := by rw [h 0 (by omega), hh.type]
    decoded := by rw [rlenDecode_congr (by omega) hlen h, hh.decoded]
    fits := hh.fits
    topic := by rwa [h.ntohs (by omega)] }

theorem PublishHeader.unpack {rmlen rmlenSize : Nat}
    (h : PublishHeader buf length rmlen rmlenSize) :
    ∃ msg, mqttUnpackPublish buf length = .ok msg ∧
      msg.topic = ⟨3 + rmlenSize, ntohs buf (1 + rmlenSize)⟩ ∧
      msg.pktId = (if withId buf then ntohs buf (3 + rmlenSize + ntohs buf (1 + rmlenSize))
        else 0) ∧
      msg.msg.pos = (if withId buf then (5 + rmlenSize + ntohs buf (1 + rmlenSize)) % 65536
        else 3 + rmlenSize + ntohs buf (1 + rmlenSize)) ∧
      msg.msg.len = sub16 length msg.msg.pos := by
  have h3 : 1 + rmlenSize + 2 = 3 + rmlenSize := by omega
  have h5 : 3 + rmlenSize + ntohs buf (1 + rmlenSize) + 2 =
    5 + rmlenSize + ntohs buf (1 + rmlenSize) := by omega
  have hfits := h.fits
  have htopic := h.topic
  simp only [mqttUnpackPublish, h.decoded]
  rw [if_neg (by simp [h.type]), if_neg (by omega), h3, if_neg (by omega), h5]
  exact ⟨_, rfl, rfl, rfl, rfl, rfl⟩

theorem publish_cases (buf : Nat → Byte) (length : Nat) :
    (∃ rmlen rmlenSize, PublishHeader buf length rmlen rmlenSize) ∨
      mqttUnpackPublish buf length = .error .einval := by
  cases hdec : rlenDecode buf length with
  | none => exact .inr (by simp [mqttUnpackPublish, hdec])
  | some found =>
    obtain ⟨rmlen, rmlenSize⟩ := found
    simp only [mqttUnpackPublish, hdec]
    split_ifs with htype hfits htopic
    · exact .inr rfl
    · exact .inr rfl
    · exact .inr rfl
    · exact .inl ⟨rmlen, rmlenSize, not_not.mp htype, hdec, by omega, by omega⟩

def PublishCut (buf : Nat → Byte) (length : Nat) : Prop :=
  ∃ rmlen rmlenSize, PublishHeader buf length rmlen rmlenSize ∧ withId buf ∧
    length < 5 + rmlenSize + ntohs buf (1 + rmlenSize)

theorem publish_safe (hlen : length < 65536) (hcut : ¬ PublishCut buf length) :
    Safe (fun msg => msg.topic.Inside length ∧ msg.msg.Inside length)
      (mqttUnpackPublish · length) buf length := by
  by_cases hh : ∃ rmlen rmlenSize, PublishHeader buf length rmlen rmlenSize
  · obtain ⟨rmlen, rmlenSize, hh⟩ := hh
    have htopic := hh.topic
    have hid : withId buf → 5 + rmlenSize + ntohs buf (1 + rmlenSize) ≤ length := by
      intro hid
      by_contra hlt
      exact hcut ⟨rmlen, rmlenSize, hh, hid, by omega⟩
    constructor
    · intro msg h
      obtain ⟨_, hmsg, htop, -, hpos, hlen'⟩ := hh.unpack
      cases Except.ok.inj (hmsg.symm.trans h)
      have hle : msg.msg.pos ≤ length := by
        rw [hpos]
        split
        · exact Nat.le_trans (Nat.mod_le _ _) (hid ‹_›)
        · exact htopic
      rw [sub16_eq hle hlen] at hlen'
      simp only [Field.Inside, htop]
      omega
    · intro buf' h
      have h0 : buf' 0 = buf 0 := h 0 (by omega)
      have htop : ntohs buf' (1 + rmlenSize) = ntohs buf (1 + rmlenSize) := h.ntohs (by omega)
      simp only [mqttUnpackPublish, h0, (hh.congr hlen h).decoded, hh.decoded, htop]
      by_cases hw : withId buf
      · rw [h.ntohs (by have := hid hw; omega)]
      · have hw' : decide (((buf 0 &&& 0x06#8) >>> 1).toNat = 1 ∨
            ((buf 0 &&& 0x06#8) >>> 1).toNat = 2) = false := by simpa [withId] using hw
        simp only [hw', Bool.false_eq_true, if_false]
  · refine .of_agree (.error .einval) fun buf' h => ?_
    obtain ⟨rmlen, rmlenSize, hh'⟩ | hrefused := publish_cases buf' length
    · exact absurd ⟨rmlen, rmlenSize, hh'.congr hlen h.symm⟩ hh
    · exact hrefused

theorem publish_unsafe (hlen : length < 65536) (hcut : PublishCut buf length)
    {right : PublishMsg → Prop} : ¬ Safe right (mqttUnpackPublish · length) buf length := by
  obtain ⟨_, rmlenSize, hh, hid, hshort⟩ := hcut
  have htopic := hh.topic
  -- the low byte of the identifier stands behind the end of the packet
  refine not_safe_of_tail (fun low _ => low) PublishMsg.pktId fun low => ?_
  generalize htail : withTail buf length (fun _ => low) = buf'
  have hagree : Agree length buf buf' := htail ▸ withTail_agree buf length _
  have hid' : withId buf' := by
    unfold withId
    rw [hagree 0 (by omega)]
    exact hid
  have htop : ntohs buf' (1 + rmlenSize) = ntohs buf (1 + rmlenSize) := hagree.ntohs (by omega)
  obtain ⟨msg, hmsg, -, hpkt, -, -⟩ := (hh.congr hlen hagree).unpack
  refine ⟨msg, hmsg, ?_⟩
  rw [if_pos hid', htop] at hpkt
  have hlow : buf' (3 + rmlenSize + ntohs buf (1 + rmlenSize) + 1) = low := by
    rw [← htail]
    exact if_neg (by omega)
  rw [hpkt, ntohs, hlow]
  omega

theorem subscribeLoop_safe (elements offset : Nat) :
    Safe (fun topics => ∀ topic ∈ topics, topic.1.Inside length)
      (subscribeLoop · length elements offset) buf length := by
  induction elements generalizing offset with
  | zero => exact .ok _ nofun
  | succ elements ih =>
    simp only [subscribeLoop]
    by_cases hmin : length < offset + 4
    · simp only [if_pos hmin]
      exact .error _
    simp only [if_neg hmin]
    obtain ⟨next, hnext⟩ : ∃ next, offset + 2 + ntohs buf offset = next := ⟨_, rfl⟩
    by_cases htopic : length < next + 1
    · refine .of_agree (.error .einval) fun buf' h => ?_
      rw [h.ntohs (by omega), hnext, if_pos htopic]
    have hfirst : Field.Inside length ⟨offset + 2, ntohs buf offset⟩ := by
      simp only [Field.Inside]
      omega
    by_cases hend : next + 1 = length
    · refine .of_agree (.ok [(_, buf next)] (forall_mem_singleton.mpr hfirst)) fun buf' h => ?_
      rw [h.ntohs (by omega), hnext, h next (by omega), if_neg htopic, if_pos hend]
    · refine .of_agree ((ih (next + 1)).map ((_, buf next) :: ·) fun _ hrest =>
        forall_mem_cons.mpr ⟨hfirst, hrest⟩) fun buf' h => ?_
      rw [h.ntohs (by omega), hnext, h next (by omega), if_neg htopic, if_neg hend]

theorem subscribe_safe (hlen : length < 65536) (buf : Nat → Byte) (elements : Nat) :
    Safe (fun msg => ∀ topic ∈ msg.topics, topic.1.Inside length)
      (mqttUnpackSubscribe · length elements) buf length := by
  rcases Nat.eq_zero_or_pos length with rfl | hpos
  · refine .of_agree (.error .einval) fun buf' _ => ?_
    unfold mqttUnpackSubscribe
    cases hdec : rlenDecode buf' 0 with
    | none => rfl
    | some found =>
      obtain ⟨rmlen, rmlenSize⟩ := found
      simp
  have hread (buf' : Nat → Byte) (h : Agree length buf buf') :
      rlenDecode buf' length = rlenDecode buf length ∧ buf' 0 = buf 0 :=
    ⟨rlenDecode_congr hpos hlen h, h 0 hpos⟩
  unfold mqttUnpackSubscribe
  cases hdec : rlenDecode buf length with
  | none => exact .of_agree (.error .einval) fun buf' h => by rw [(hread buf' h).1, hdec]
  | some found =>
    obtain ⟨rmlen, rmlenSize⟩ := found
    by_cases hfits : length < 1 + rmlenSize + rmlen
    · refine .of_agree (.error .einval) fun buf' h => ?_
      simp only [hread buf' h, hdec, if_pos hfits]
    by_cases hmin : rmlen < 2 + 4
    · refine .of_agree (.error .einval) fun buf' h => ?_
      simp only [hread buf' h, hdec, if_neg hfits, if_pos hmin]
    by_cases htype : buf 0 ≠ 0x82#8
    · refine .of_agree (.error .einval) fun buf' h => ?_
      simp only [hread buf' h, hdec, if_neg hfits, if_neg hmin, if_pos htype]
    · refine .of_agree ((subscribeLoop_safe elements (1 + rmlenSize + 2)).map
        (⟨ntohs buf (1 + rmlenSize), ·⟩) fun _ h => h) fun buf' h => ?_
      simp only [hread buf' h, hdec, if_neg hfits, if_neg hmin, if_neg htype]
      rw [h.ntohs (by omega)]

structure SubackHeader (buf : Nat → Byte) (length elements rlen rlenSize : Nat) : Prop where
  some_element : elements ≠ 0
  type : buf 0 = 0x90#8
  decoded : rlenDecode buf length = some (rlen, rlenSize)
  fits : 1 + rlen + rlenSize ≤ length

theorem SubackHeader.congr (hlen : length < 65536)
    (h : Agree length buf buf') (hh : SubackHeader buf length elements rlen rlenSize) :
    SubackHeader buf' length elements rlen rlenSize := by
  have hfits := hh.fits
  exact {
    some_element := hh.some_element
    type := by rw [h 0 (by omega), hh.type]
    decoded := by rw [rlenDecode_congr (by omega) hlen h, hh.decoded]
    fits := hh.fits }

theorem SubackHeader.unpack (h : SubackHeader buf length elements rlen rlenSize) :
    mqttUnpackSuback buf length elements =
      if elements < (rlen + 256 - 2) % 256 then .error .einval
      else (subackLoop buf ((rlen + 256 - 2) % 256) (3 + rlenSize)).map fun grantedQos =>
        ⟨ntohs buf (1 + rlenSize), ⟨3 + rlenSize, (rlen + 256 - 2) % 256⟩, grantedQos⟩ := by
  have h3 : 1 + rlenSize + 2 = 3 + rlenSize := by omega
  have hfits := h.fits
  simp only [mqttUnpackSuback, h.decoded]
  rw [if_neg h.some_element, if_neg (by simp [h.type]), if_neg (by omega), h3]

theorem suback_cases (buf : Nat → Byte) (length elements : Nat) :
    (∃ rlen rlenSize, SubackHeader buf length elements rlen rlenSize) ∨
      mqttUnpackSuback buf length elements = .error .einval := by
  cases hdec : rlenDecode buf length with
  | none => exact .inr (by simp [mqttUnpackSuback, hdec])
  | some found =>
    obtain ⟨rlen, rlenSize⟩ := found
    simp only [mqttUnpackSuback, hdec]
    split_ifs with hel htype hfits
    · exact .inr rfl
    · exact .inr rfl
    · exact .inr rfl
    all_goals exact .inl ⟨rlen, rlenSize, hel, not_not.mp htype, hdec, by omega⟩

theorem subackLoop_safe (items offset : Nat) (hin : offset + items ≤ length) :
    Safe (fun _ => True) (subackLoop · items offset) buf length := by
  refine ⟨fun _ _ => trivial, fun buf' h => ?_⟩
  induction items generalizing offset with
  | zero => rfl
  | succ items ih => rw [subackLoop, subackLoop, h offset (by omega), ih (offset + 1) (by omega)]

theorem subackLoop_refused {i : Nat} (items offset : Nat) (hi : i < items)
    (hbad : 2#8 < buf (offset + i)) : subackLoop buf items offset = .error .einval := by
  induction items generalizing offset i with
  | zero => omega
  | succ items ih =>
    simp only [subackLoop]
    by_cases hfirst : 2#8 < buf offset
    · exact if_pos hfirst
    · rw [if_neg hfirst]
      obtain _ | i := i
      · exact absurd hbad hfirst
      · rw [← Nat.add_assoc, Nat.add_right_comm] at hbad
        rw [ih (offset + 1) (by omega) hbad]
        rfl

theorem subackLoop_granted (items offset : Nat) (hgood : ∀ i < items, ¬ 2#8 < buf (offset + i)) :
    ∃ granted, subackLoop buf items offset = .ok granted := by
  induction items generalizing offset with
  | zero => exact ⟨[], rfl⟩
  | succ items ih =>
    obtain ⟨granted, hrest⟩ := ih (offset + 1) fun i hi => by
      rw [show offset + 1 + i = offset + (i + 1) by omega]
      exact hgood (i + 1) (by omega)
    refine ⟨buf offset :: granted, ?_⟩
    simp only [subackLoop]
    have hfirst : ¬ 2#8 < buf offset := hgood 0 (by omega)
    rw [if_neg hfirst, hrest]
    rfl

def SubackCut (buf : Nat → Byte) (length elements : Nat) : Prop :=
  ∃ rlen rlenSize, SubackHeader buf length elements rlen rlenSize ∧ rlen < 2 ∧
    rlen + 254 ≤ elements ∧
    ∀ i < rlen + 254, 3 + rlenSize + i < length → ¬ 2#8 < buf (3 + rlenSize + i)

def SubackRight (buf : Nat → Byte) (length : Nat) (msg : SubackMsg) : Prop :=
  msg.items.Inside length ∧
    ∀ rlen rlenSize, rlenDecode buf length = some (rlen, rlenSize) → msg.items.len + 2 ≤ rlen

theorem suback_safe (hlen : length < 65536) (hcut : ¬ SubackCut buf length elements) :
    Safe (SubackRight buf length) (mqttUnpackSuback · length elements) buf length := by
  by_cases hh : ∃ rlen rlenSize, SubackHeader buf length elements rlen rlenSize
  · obtain ⟨rlen, rlenSize, hh⟩ := hh
    have hfits := hh.fits
    by_cases htwo : 2 ≤ rlen
    · have hitems : (rlen + 256 - 2) % 256 + 2 ≤ rlen := by omega
      generalize hi : (rlen + 256 - 2) % 256 = items at hitems
      by_cases hel : elements < items
      · refine .of_agree (.error .einval) fun buf' h => ?_
        rw [(hh.congr hlen h).unpack, hi, if_pos hel]
      · refine .of_agree ((subackLoop_safe items (3 + rlenSize) (by omega)).map
          (⟨ntohs buf (1 + rlenSize), ⟨3 + rlenSize, items⟩, ·⟩) fun _ _ => ⟨?_, ?_⟩) fun buf' h => ?_
        · simp only [Field.Inside]
          omega
        · intro rlen' rlenSize' hdec
          cases hdec.symm.trans hh.decoded
          exact hitems
        · rw [(hh.congr hlen h).unpack, hi, if_neg hel, h.ntohs (by omega)]
    · have hitems : (rlen + 256 - 2) % 256 = rlen + 254 := by omega
      refine .of_agree (.error .einval) fun buf' h => ?_
      rw [(hh.congr hlen h).unpack, hitems]
      by_cases hel : elements < rlen + 254
      · exact if_pos hel
      rw [if_neg hel]
      have hbad : ∃ i, i < rlen + 254 ∧ 3 + rlenSize + i < length ∧
          2#8 < buf (3 + rlenSize + i) := by
        by_contra hno
        exact hcut ⟨rlen, rlenSize, hh, by omega, by omega,
          fun i hi hlt hbad => hno ⟨i, hi, hlt, hbad⟩⟩
      obtain ⟨i, hi, hlt, hbad⟩ := hbad
      rw [subackLoop_refused _ _ hi (by rwa [h _ hlt])]
      rfl
  · refine .of_agree (.error .einval) fun buf' h => ?_
    obtain ⟨rlen, rlenSize, hh'⟩ | hrefused := suback_cases buf' length elements
    · exact absurd ⟨rlen, rlenSize, hh'.congr hlen h.symm⟩ hh
    · exact hrefused

theorem suback_unsafe (hlen : length < 65536) (hcut : SubackCut buf length elements) :
    ¬ Safe (SubackRight buf length) (mqttUnpackSuback · length elements) buf length := by
  obtain ⟨rlen, rlenSize, hh, htwo, hel, hgood⟩ := hcut
  intro hsafe
  have hitems : (rlen + 256 - 2) % 256 = rlen + 254 := by omega
  -- with zeros behind the packet every item is granted
  have hagree := withTail_agree buf length fun _ => 0
  have hall : ∀ i < rlen + 254, ¬ 2#8 < withTail buf length (fun _ => 0) (3 + rlenSize + i) := by
    intro i hi
    unfold withTail
    split
    · exact hgood i hi ‹_›
    · exact BitVec.not_lt_zero
  obtain ⟨granted, hgranted⟩ := subackLoop_granted _ _ hall
  have hrun := (hh.congr hlen hagree).unpack
  rw [hitems, if_neg (by omega), hgranted] at hrun
  have hself := (hsafe.unaffected _ hagree).symm.trans hrun
  have hright := (hsafe.reported _ hself).2 rlen rlenSize hh.decoded
  omega

theorem unpack_safe_iff (buf : Nat → Byte) (length elements : Nat) (hlen : length < 65536) :
    (Safe (fun msg => ∀ f ∈ msg.fields, f.Inside length) (mqttUnpackConnect · length) buf length ↔
      ¬ ConnectCut buf length) ∧
    (Safe (fun msg => msg.topic.Inside length ∧ msg.msg.Inside length)
      (mqttUnpackPublish · length) buf length ↔ ¬ PublishCut buf length) ∧
    Safe (fun msg => ∀ topic ∈ msg.topics, topic.1.Inside length)
      (mqttUnpackSubscribe · length elements) buf length ∧
    (Safe (SubackRight buf length) (mqttUnpackSuback · length elements) buf length ↔
      ¬ SubackCut buf length elements) := by
  refine ⟨⟨?_, connect_safe hlen⟩, ⟨?_, publish_safe hlen⟩, subscribe_safe hlen buf elements,
    ⟨?_, suback_safe hlen⟩⟩
  · exact fun hsafe hcut => connect_unsafe hlen hcut hsafe
  · exact fun hsafe hcut => publish_unsafe hlen hcut hsafe
  · exact fun hsafe hcut => suback_unsafe hlen hcut hsafe

def packet (bytes : List Byte) : Nat → Byte := fun i => bytes.getD i 0

def smallPublish : List Byte := [0x32, 5, 0, 1, 0x61, 0, 7]

theorem smallPublish_safe : Safe (fun msg : PublishMsg => msg.topic.Inside 7 ∧ msg.msg.Inside 7)
      (mqttUnpackPublish · 7) (packet smallPublish) 7 := by
  refine (unpack_safe_iff (packet smallPublish) 7 1 (by decide)).2.1.mpr ?_
  rintro ⟨_, _, hh, -, hshort⟩
  have hdec : rlenDecode (packet smallPublish) 7 = some (5, 1) := by decide
  cases hdec.symm.trans hh.decoded
  exact absurd hshort (by decide)

def idlessPublish : List Byte := [0x32, 3, 0, 1, 0x61]

def paddedConnect : List Byte := [0x10, 0x80, 0x80, 0x80, 0, 0, 4, 0x4D, 0x51, 0x54, 0x54, 4]

/-- A message of 65534 bytes behind a packet of five, a client identifier behind a packet of
twelve and 254 items in one of two. -/
theorem fields_outside :
    (mqttUnpackPublish (packet idlessPublish) 5).toOption.map (·.msg) = some ⟨7, 65534⟩ ∧
    (mqttUnpackConnect (packet paddedConnect) 12).toOption.map (·.clientId) = some ⟨17, 0⟩ ∧
    (mqttUnpackSuback (packet [0x90, 0]) 2 255).toOption.map (·.items) = some ⟨4, 254⟩ := by
  decide +kernel

end Zephyr.Mqtt
