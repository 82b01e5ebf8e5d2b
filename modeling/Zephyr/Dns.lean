import Zephyr.RingBuffer

/-! DNS messages: `dns_msg_pack_qname`, which writes the length of a label when the label has ended,
`dns_copy_qname`, which follows labels and pointers, and the steps that unpack a response. -/

namespace Zephyr.Dns

open List

abbrev Byte := BitVec 8

def dot : Byte := 0x2E#8

def dnsLabelMaxSize : Nat := 63

/-- The bytes that have been written, up to `lb_index`. -/
structure Pack where
  buf : List Byte
  lbStart : Nat
  lbSize : Nat

/-- The place for the length of the next label holds `junk` until the label has ended. -/
def packChar (junk : Byte) (s : Pack) (c : Byte) : Pack :=
  let patched := s.buf.set s.lbStart (BitVec.ofNat 8 s.lbSize)
  if c = dot then ⟨patched ++ [junk], s.buf.length, 0⟩
  else if c = 0 then ⟨patched ++ [0], s.lbStart, s.lbSize⟩
  else ⟨s.buf ++ [c], s.lbStart, s.lbSize + 1⟩

def packStep (junk : Byte) (size : Nat) (s : Pack) (c : Byte) : Option Pack :=
  if size ≤ s.buf.length then none else some (packChar junk s c)

def dnsMsgPackQname (junk : Byte) (size : Nat) (domainName : List Byte) : Option (List Byte) :=
  let dnSize := domainName.length % 65536
  if dnSize = 0 then none
  else
    (((domainName ++ [0]).take (dnSize + 1)).foldlM (packStep junk size) ⟨[junk], 0, 0⟩).map
      Pack.buf

def dnsHeaderAncount (msg : Nat → Byte) : Nat := (msg 6).toNat * 256 + (msg 7).toNat

def copyLoop (size msgSize : Nat) (msg : Nat → Byte) : Nat → Nat → List Byte → Option (List Byte)
  | 0, _, _ => none
  | i + 1, pos, copied =>
    if msgSize ≤ pos then none
    else
      let lbSize := (msg pos).toNat
      if dnsLabelMaxSize < lbSize then
        if msgSize ≤ pos + 1 then none
        else
          copyLoop size msgSize msg i ((msg pos &&& 0x3F#8).toNat * 256 + (msg (pos + 1)).toNat)
            copied
      else if size - copied.length < lbSize + 1 then none
      else
        let copied := copied ++ readRun msg pos (lbSize + 1)
        if lbSize = 0 then some copied
        else copyLoop size msgSize msg i ((pos + (lbSize + 1)) % 65536) copied

/-- `dns_copy_qname`, for a message of `msgSize` bytes. -/
def dnsCopyQname (size msgSize : Nat) (msg : Nat → Byte) (pos : Nat) : Option (List Byte) :=
  copyLoop size msgSize msg (dnsHeaderAncount msg + 1) pos []

def labels (name : List Byte) : List (List Byte) := name.splitOn dot

def encodeLabels (ls : List (List Byte)) : List Byte :=
  ls.flatMap fun l => BitVec.ofNat 8 l.length :: l

def Sized (ls : List (List Byte)) : Prop := ∀ l ∈ ls, 1 ≤ l.length ∧ l.length ≤ dnsLabelMaxSize

/-- `pos` is the position of the name, or `hops` is one and `pos` that of a pointer to it. -/
def Refers (msgSize : Nat) (msg : Nat → Byte) (name pos hops : Nat) : Prop :=
  hops = 0 ∧ pos = name ∨ hops = 1 ∧ pos + 1 < msgSize ∧ 0xC0#8 ≤ msg pos ∧
    (msg pos &&& 0x3F#8).toNat * 256 + (msg (pos + 1)).toNat = name

variable {msg : Nat → Byte} {s r : Pack} {size msgSize pos i : Nat} {c junk : Byte}
  {done cur rest name enc copied : List Byte} {ls : List (List Byte)}

theorem packStep_eq_some (h : packStep junk size s c = some r) : r = packChar junk s c := by
  rw [packStep] at h
  split_ifs at h
  exact (Option.some.inj h).symm

/-- `done` has the labels that have ended, and `cur` what there is of the next one. -/
theorem pack_rest (hnul : 0 ∉ rest) (hpack : (rest ++ [0]).foldlM (packStep junk size)
      ⟨done ++ junk :: cur, done.length, cur.length⟩ = some r) :
    r.buf = done ++ encodeLabels ((labels rest).modifyHead (cur ++ ·)) ++ [0] := by
  have hset : ∀ b, (done ++ junk :: cur).set done.length b = done ++ b :: cur := by simp
  induction rest generalizing done cur with
  | nil =>
    obtain ⟨u, hu, hr⟩ := Option.bind_eq_some_iff.mp hpack
    obtain rfl : u = r := Option.some.inj hr
    rw [packStep_eq_some hu, packChar, if_neg (by decide), if_pos rfl, hset]
    simp [labels, encodeLabels]
  | cons c rest ih =>
    obtain ⟨u, hu, hrest⟩ := Option.bind_eq_some_iff.mp hpack
    obtain ⟨hc, hnul⟩ := not_or.mp (mem_cons.not.mp hnul)
    rw [packStep_eq_some hu, packChar, hset] at hrest
    rw [labels, splitOn_cons_eq_if_modifyHead]
    by_cases hdot : c = dot
    · rw [if_pos hdot] at hrest
      rw [if_pos (by simpa using hdot)]
      have hlen : (done ++ junk :: cur).length =
        (done ++ BitVec.ofNat 8 cur.length :: cur).length := by simp
      rw [hlen] at hrest
      rw [@ih _ [] hnul hrest (by simp), labels]
      cases rest.splitOn dot <;> simp [encodeLabels]
    · rw [if_neg hdot, if_neg (Ne.symm hc), append_assoc, cons_append] at hrest
      rw [if_neg (by simpa using hdot)]
      rw [@ih done (cur ++ [c]) hnul (by simpa using hrest) (by simp), labels]
      cases rest.splitOn dot <;> simp

theorem readRun_add (msg : Nat → Byte) (pos m n : Nat) :
    readRun msg pos (m + n) = readRun msg pos m ++ readRun msg (pos + m) n := by
  simp only [readRun, map_range_add, Nat.add_assoc]

theorem copyLoop_label {k : Nat} (hk : (msg pos).toNat = k) (hle : k ≤ dnsLabelMaxSize)
    (hpos : pos < msgSize) (hroom : copied.length + (k + 1) ≤ size) :
    copyLoop size msgSize msg (i + 1) pos copied =
      if k = 0 then some (copied ++ readRun msg pos (k + 1))
      else copyLoop size msgSize msg i ((pos + (k + 1)) % 65536)
        (copied ++ readRun msg pos (k + 1)) := by
  rw [copyLoop, if_neg (not_le.mpr hpos), hk]
  dsimp only
  rw [if_neg (not_lt.mpr hle), if_neg (by omega)]

theorem copyLoop_labels (hsized : Sized ls) (hplaced : readRun msg pos
      (encodeLabels ls ++ [0]).length = encodeLabels ls ++ [0])
    (hend : pos + (encodeLabels ls ++ [0]).length ≤ msgSize) (hmsg : msgSize < 65536)
    (hroom : copied.length + (encodeLabels ls ++ [0]).length ≤ size) :
    copyLoop size msgSize msg i pos copied =
      if ls.length < i then some (copied ++ (encodeLabels ls ++ [0])) else none := by
  induction ls generalizing i pos copied with
  | nil =>
    have hzero : msg pos = 0 := by simpa [readRun, encodeLabels] using hplaced
    cases i with
    | zero => rfl
    | succ i =>
      rw [copyLoop_label (k := 0) (by rw [hzero]; rfl) (by decide) hend hroom, if_pos rfl]
      refine .trans ?_ (if_pos i.succ_pos).symm
      exact congrArg (fun x => some (copied ++ x)) hplaced
  | cons l ls ih =>
    obtain ⟨⟨hpos, hmax⟩, hsized⟩ := forall_mem_cons.mp hsized
    have hsplit : encodeLabels (l :: ls) ++ [0] =
      (BitVec.ofNat 8 l.length :: l) ++ (encodeLabels ls ++ [0]) := append_assoc ..
    rw [hsplit, length_append] at hplaced hend hroom
    rw [hsplit]
    rw [readRun_add] at hplaced
    obtain ⟨hlabel, hrest⟩ := append_inj hplaced length_readRun
    cases i with
    | zero => rfl
    | succ i =>
      have hk : (msg pos).toNat = l.length := by
        have hhead : msg pos = BitVec.ofNat 8 l.length := by
          simpa [readRun, range_succ_eq_map] using congrArg head? hlabel
        unfold dnsLabelMaxSize at hmax
        rw [hhead, BitVec.toNat_ofNat, Nat.mod_eq_of_lt (by omega)]
      rw [length_cons] at hlabel hend hroom hrest
      rw [copyLoop_label hk hmax (by omega) (by omega), if_neg (by omega), hlabel,
        Nat.mod_eq_of_lt (by omega), ih hsized hrest (by omega) (by simp at hroom ⊢; omega)]
      simp

theorem dnsCopyQname_refers {base hops : Nat} (h : Refers msgSize msg base pos hops) :
    dnsCopyQname size msgSize msg pos =
      copyLoop size msgSize msg (dnsHeaderAncount msg + 1 - hops) base [] := by
  rcases h with ⟨rfl, rfl⟩ | ⟨rfl, hlt, hptr, rfl⟩
  · rfl
  · have hptr : 192 ≤ (msg pos).toNat := hptr
    rw [dnsCopyQname, copyLoop, if_neg (by omega)]
    dsimp only
    rw [if_pos (by unfold dnsLabelMaxSize; omega), if_neg (by omega), Nat.add_sub_cancel]

theorem length_buf (h : rest.foldlM (packStep junk size) s = some r) :
    r.buf.length = s.buf.length + rest.length := by
  induction rest generalizing s with
  | nil => rw [← Option.some.inj h, length_nil, Nat.add_zero]
  | cons c rest ih =>
    obtain ⟨u, hu, hrest⟩ := Option.bind_eq_some_iff.mp h
    have hone : u.buf.length = s.buf.length + 1 := by
      rw [packStep_eq_some hu, packChar]
      split_ifs <;> simp
    rw [ih hrest, hone, length_cons]
    omega

theorem length_encodeLabels (name : List Byte) :
    (encodeLabels (labels name)).length = name.length + 1 := by
  induction name with
  | nil => rfl
  | cons c rest ih =>
    rw [labels, splitOn_cons_eq_if_modifyHead, length_cons, ← ih, labels]
    split_ifs
    · simp [encodeLabels]
    · cases hls : rest.splitOn dot with
      | nil => exact absurd hls (splitOn_ne_nil _ _)
      | cons l ls => simp [encodeLabels]

structure NameRight (name enc : List Byte) (copied : Option (List Byte)) : Prop where
  packed : enc = encodeLabels (labels name) ++ [0]
  sized : Sized (labels name)
  copied : copied = some enc

/-- For a name that has been packed, wherever its encoding stands in a message: it is right and is
copied if and only if the length of the name fits in 16 bits, no label is empty or too long, and the
answer count of the message is not below the number of labels, one more for a pointer. -/
theorem nameRight_iff (hnul : 0 ∉ name) (hpack : dnsMsgPackQname junk size name = some enc)
    {base hops destSize : Nat} (hplaced : readRun msg base enc.length = enc)
    (hend : base + enc.length ≤ msgSize) (hmsg : msgSize < 65536)
    (hrefers : Refers msgSize msg base pos hops) (hroom : enc.length ≤ destSize) :
    NameRight name enc (dnsCopyQname destSize msgSize msg pos) ↔ name.length < 65536 ∧
      Sized (labels name) ∧ (labels name).length + hops ≤ dnsHeaderAncount msg := by
  rw [dnsMsgPackQname] at hpack
  split_ifs at hpack
  obtain ⟨s, hs, rfl⟩ := Option.map_eq_some_iff.mp hpack
  by_cases hlt : name.length < 65536
  · rw [Nat.mod_eq_of_lt hlt, take_of_length_le (by simp)] at hs
    have hlabels : (labels name).modifyHead ([] ++ ·) = labels name := by
      cases labels name <;> rfl
    have henc : s.buf = encodeLabels (labels name) ++ [0] := by
      rw [@pack_rest _ _ _ [] [] _ hnul hs, hlabels, nil_append]
    rw [henc] at hplaced hend hroom ⊢
    rw [dnsCopyQname_refers hrefers]
    constructor
    · rintro ⟨-, hsized, hright⟩
      rw [copyLoop_labels hsized hplaced hend hmsg (by simpa using hroom)] at hright
      split_ifs at hright
      exact ⟨hlt, hsized, by omega⟩
    · rintro ⟨-, hsized, hcount⟩
      refine ⟨rfl, hsized, ?_⟩
      rw [copyLoop_labels hsized hplaced hend hmsg (by simpa using hroom), if_pos (by omega),
        nil_append]
  · refine iff_of_false (fun h => ?_) fun h => hlt h.1
    have hlen := congrArg length h.packed
    rw [length_append, length_encodeLabels, length_buf hs, length_take, length_append] at hlen
    simp only [length_singleton] at hlen
    omega

def twoLabels : Nat → Byte := fun i =>
  [0, 0, 0, 0, 0, 0, 0, 2, 0, 0, 0, 0, 1, 0x61, 1, 0x62, 0].getD i 0

theorem twoLabels_right : NameRight [0x61, dot, 0x62] [1, 0x61, 1, 0x62, 0]
    (dnsCopyQname 5 17 twoLabels 12) :=
  (nameRight_iff (by decide) (by decide : dnsMsgPackQname 0 5 [0x61, dot, 0x62] = _) (by decide)
    (by decide) (by decide) (.inl ⟨rfl, rfl⟩) (by decide)).mpr (by unfold Sized; decide)

/-- In a message without answers one step is not enough for a label and the root. -/
theorem noAnswers_uncopied : dnsMsgPackQname 0 3 [0x61] = some [1, 0x61, 0] ∧
    dnsCopyQname 3 15 (fun i => if i = 12 then 1 else if i = 13 then 0x61 else 0) 12 = none := by
  decide

def enomem : Int := -12
def einval : Int := -22

def ntohs (msg : Nat → Byte) (pos : Nat) : Nat := (msg pos).toNat * 256 + (msg (pos + 1)).toNat

def dnsUnpackResponseHeader (msgSize : Nat) (srcId : Int) (msg : Nat → Byte) : Int :=
  if msgSize < 12 then enomem
  else if ntohs msg 0 ≠ srcId then einval
  else if msg 2 &&& 0x80#8 = 0 then einval
  else if (msg 2 &&& 0x70#8) >>> 1 ≠ 0 then einval
  else if (msg 3 &&& 0x70#8) >>> 4 ≠ 0 then einval
  else if msg 3 &&& 0x0F#8 ≠ 0 then (msg 3 &&& 0x0F#8).toNat
  else if ntohs msg 4 < 1 ∨ dnsHeaderAncount msg < 1 then einval
  else 0

def dnsFindNull (msg : Nat → Byte) (pos : Nat) : Nat → Option Nat
  | 0 => none
  | size + 1 => if msg pos = 0 then some 1 else (dnsFindNull msg (pos + 1) size).map (· + 1)

/-- `dns_unpack_response_query`, with the offset of the answer that it stores. -/
def dnsUnpackResponseQuery (msgSize : Nat) (msg : Nat → Byte) : Except Int Nat :=
  match dnsFindNull msg 12 (msgSize - 12) with
  | none => .error enomem
  | some qnameSize =>
    let buf := 12 + qnameSize
    if msgSize < buf + 4 then .error enomem
    else if ntohs msg buf ≠ 1 ∧ ntohs msg buf ≠ 28 then .error einval
    else if ntohs msg (buf + 2) ≠ 1 then .error einval
    else .ok (buf + 4)

structure Response where
  cname : Bool
  position : Nat
  length : Nat
  ttl : Nat
deriving DecidableEq

def dnsUnpackAnswer (msgSize : Nat) (dnamePtr : Int) (msg : Nat → Byte) (answer : Nat) :
    Except Int Response :=
  let response (cname : Bool) : Response := ⟨cname, (answer + 12) % 65536, ntohs msg (answer + 10),
    ntohs msg (answer + 6) * 65536 + ntohs msg (answer + 8)⟩
  if (msg answer).toNat < dnsLabelMaxSize then .error enomem
  else if ((msg answer &&& 0x3F#8).toNat * 256 + (msg (answer + 1)).toNat : Nat) ≠ dnamePtr then
    .error enomem
  else if (msgSize + 65536 - answer) % 65536 < 12 then .error enomem
  else if msg (answer + 5) ≠ 1 then .error einval
  else if msg (answer + 3) = 1 ∨ msg (answer + 3) = 28 then .ok (response false)
  else if msg (answer + 3) = 5 then .ok (response true)
  else .error einval

variable {msg' : Nat → Byte} {srcId dnamePtr : Int} {answer : Nat} {a : Response}

theorem dnsFindNull_congr (h : ∀ i < msgSize, msg' i = msg i) {n : Nat} (hn : pos + n ≤ msgSize) :
    dnsFindNull msg' pos n = dnsFindNull msg pos n := by
  induction n generalizing pos with
  | zero => rfl
  | succ n ih => rw [dnsFindNull, dnsFindNull, h pos (by omega), ih (by omega)]

theorem dnsUnpackResponseQuery_inside (h : ∀ i < msgSize, msg' i = msg i) (hsize : 12 ≤ msgSize)
    (hquery : dnsUnpackResponseQuery msgSize msg = .ok answer) :
    dnsUnpackResponseQuery msgSize msg' = .ok answer ∧ answer ≤ msgSize := by
  rw [dnsUnpackResponseQuery] at hquery ⊢
  rw [dnsFindNull_congr h (by omega)]
  cases hnull : dnsFindNull msg 12 (msgSize - 12) with
  | none => simp [hnull] at hquery
  | some qnameSize =>
    simp only [hnull] at hquery ⊢
    split_ifs at hquery with hle
    obtain rfl := Except.ok.inj hquery
    refine ⟨?_, by omega⟩
    simp (disch := omega) only [ntohs, h] at *
    simp [*]

/-- No byte outside the message decides that the three steps succeed, and the data of the answer
lies inside. -/
structure AnswerRight (msgSize : Nat) (srcId dnamePtr : Int) (msg : Nat → Byte) (answer : Nat)
    (a : Response) : Prop where
  inside : ∀ msg' : Nat → Byte, (∀ i < msgSize, msg' i = msg i) →
    dnsUnpackResponseHeader msgSize srcId msg' = 0 ∧
      dnsUnpackResponseQuery msgSize msg' = .ok answer ∧
      dnsUnpackAnswer msgSize dnamePtr msg' answer = .ok a
  fits : a.position + a.length ≤ msgSize

/-- The length field of the answer is not compared with what is left of the message. -/
theorem answerRight_iff (hsize : msgSize < 65536)
    (hheader : dnsUnpackResponseHeader msgSize srcId msg = 0)
    (hquery : dnsUnpackResponseQuery msgSize msg = .ok answer)
    (hanswer : dnsUnpackAnswer msgSize dnamePtr msg answer = .ok a) :
    AnswerRight msgSize srcId dnamePtr msg answer a ↔
      answer + 12 + ntohs msg (answer + 10) ≤ msgSize := by
  have h12 : 12 ≤ msgSize := by
    by_contra hlt
    simp [dnsUnpackResponseHeader, Nat.lt_of_not_le hlt, enomem] at hheader
  have hle := (dnsUnpackResponseQuery_inside (fun _ _ => rfl) h12 hquery).2
  have hroom : answer + 12 ≤ msgSize := by
    rw [dnsUnpackAnswer] at hanswer
    split_ifs at hanswer <;> omega
  have ha : a.position = answer + 12 ∧ a.length = ntohs msg (answer + 10) := by
    have hpos : (answer + 12) % 65536 = answer + 12 := Nat.mod_eq_of_lt (by omega)
    rw [dnsUnpackAnswer, hpos] at hanswer
    split_ifs at hanswer <;> exact Except.ok.inj hanswer ▸ ⟨rfl, rfl⟩
  rw [← ha.1, ← ha.2]
  refine ⟨AnswerRight.fits, fun hfits => ⟨fun msg' h => ⟨?_, ?_, ?_⟩, hfits⟩⟩
  · rw [← hheader]
    simp (disch := omega) only [dnsUnpackResponseHeader, dnsHeaderAncount, ntohs, h]
    rfl
  · exact (dnsUnpackResponseQuery_inside h h12 hquery).1
  · rw [← hanswer]
    simp (disch := omega) only [dnsUnpackAnswer, ntohs, h]

def addressAnswer : Nat → Byte := fun i =>
  [0, 1, 0x80, 0, 0, 1, 0, 1, 0, 0, 0, 0, 0, 0, 1, 0, 1, 0xC0, 12, 0, 1, 0, 1, 0, 0, 0, 60, 0, 4,
    192, 0, 2, 1].getD i 0

theorem addressAnswer_right : AnswerRight 33 1 12 addressAnswer 17 ⟨false, 29, 4, 60⟩ :=
  (answerRight_iff (by decide) (by decide) (by decide) (by decide)).mpr (by decide)

/-- The message ends before the address, which is reported behind its end. -/
theorem addressAnswer_cut : dnsUnpackResponseHeader 29 1 addressAnswer = 0 ∧
    dnsUnpackResponseQuery 29 addressAnswer = .ok 17 ∧
    dnsUnpackAnswer 29 12 addressAnswer 17 = .ok ⟨false, 29, 4, 60⟩ := by
  decide

end Zephyr.Dns
