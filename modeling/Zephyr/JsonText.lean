import Zephyr.Json

/-! The encoder of `lib/json`, over any routine that takes the bytes, and the text that it gives to
that routine. -/

namespace Zephyr.Json

open List

def escapeAs : Char → Option Char
  | '"' => some '"'
  | '\\' => some '\\'
  | '\x08' => some 'b'
  | '\x0c' => some 'f'
  | '\n' => some 'n'
  | '\r' => some 'r'
  | '\t' => some 't'
  | _ => none

def digitChar (n : Nat) : Char := Char.ofNat (n + 48)

def printkDecLoop : Nat → Nat → Nat → Bool → List Char
  | 0, _, remainder, _ => [digitChar remainder]
  | n + 1, pos, remainder, foundLargestDigit =>
    if pos < 9 then [digitChar remainder]
    else
      let found := foundLargestDigit || pos < remainder
      (if found then [digitChar (remainder / (pos + 1))] else []) ++
        printkDecLoop n (pos / 10) (remainder % (pos + 1)) found

def printkDecUlong (num : Nat) : List Char := printkDecLoop 10 999999999 num false

def printkDec (num : BitVec 32) : List Char :=
  if num.toInt < 0 then '-' :: printkDecUlong (-num).toNat else printkDecUlong num.toNat

section Encode

variable {S : Type} (appendBytes : List Char → S → Except Int S)

def jsonEscapeInternal (str : List Char) (data : S) : Except Int S :=
  str.foldlM (fun data c =>
    match escapeAs c with
    | some escaped => appendBytes ['\\', escaped] data
    | none => appendBytes [c] data) data

def strEncode (str : List Char) (data : S) : Except Int S := do
  let data ← appendBytes ['"'] data
  let data ← jsonEscapeInternal appendBytes str data
  appendBytes ['"'] data

def numEncode (num : BitVec 32) (data : S) : Except Int S :=
  if 12 ≤ (printkDec num).length then .error (-eNoMem) else appendBytes (printkDec num) data

def boolEncode (value : BitVec 32) (data : S) : Except Int S :=
  if value ≠ 0#32 then appendBytes ['t', 'r', 'u', 'e'] data
  else appendBytes ['f', 'a', 'l', 's', 'e'] data

def appendComma (more : Bool) (data : S) : Except Int S :=
  if more then appendBytes [','] data else .ok data

def arrElems (encodeElem : Int → S → Except Int S) (offset elemSize : Nat) :
    Nat → Int → S → Except Int S
  | 0, _, data => .ok data
  | n + 1, field, data => do
    let data ← encodeElem (field - offset) data
    let data ← appendComma appendBytes (0 < n) data
    arrElems encodeElem offset elemSize n (field + elemSize) data

def arrEncode (encodeElem : Int → S → Except Int S) (elemDescr : Descr) (mem : Mem (List Char))
    (field val : Int) (data : S) : Except Int S := do
  let nElem := (mem (val + elemDescr.offset)).toWord.toNat
  let data ← appendBytes ['['] data
  let data ← arrElems appendBytes encodeElem elemDescr.offset (getElemSize elemDescr) nElem field
    data
  appendBytes [']'] data

def objEncode (fields : S → Except Int S) (data : S) : Except Int S := do
  let data ← appendBytes ['\x7b'] data
  let data ← fields data
  appendBytes ['\x7d'] data

mutual

def encode (mem : Mem (List Char)) : Descr → Int → S → Except Int S
  | .boolean f, val, data => boolEncode appendBytes (mem (val + f.offset)).toWord data
  | .string f, val, data => strEncode appendBytes (mem (val + f.offset)).toText data
  | .array f elementDescr _, val, data =>
    arrEncode appendBytes (encode mem elementDescr) elementDescr mem (val + f.offset) val data
  | .object f subDescr, val, data =>
    objEncode appendBytes (encodeFields mem subDescr (val + f.offset)) data
  | .number f, val, data => numEncode appendBytes (mem (val + f.offset)).toWord data

def encodeFields (mem : Mem (List Char)) : List Descr → Int → S → Except Int S
  | [], _, data => .ok data
  | d :: sub, val, data => do
    let data ← strEncode appendBytes d.field.fieldName data
    let data ← appendBytes [':'] data
    let data ← encode mem d val data
    let data ← appendComma appendBytes (!sub.isEmpty) data
    encodeFields mem sub val data

end

def jsonObjEncode (mem : Mem (List Char)) (descr : List Descr) (val : Int) : S → Except Int S :=
  objEncode appendBytes (encodeFields appendBytes mem descr val)

end Encode

/-- `struct appender`; `buffer` holds the bytes that are used. -/
structure Appender where
  buffer : List Char
  size : Nat

def appendBytesToBuf (bytes : List Char) (a : Appender) : Except Int Appender :=
  if a.size - a.buffer.length < bytes.length then .error (-eNoMem)
  else .ok { a with buffer := a.buffer ++ bytes }

def jsonObjEncodeBuf (mem : Mem (List Char)) (descr : List Descr) (val : Int) (bufSize : Nat) :
    Except Int (List Char) :=
  (jsonObjEncode appendBytesToBuf mem descr val ⟨[], bufSize⟩).map Appender.buffer

def escape (s : List Char) : List Char :=
  s.flatMap fun c => match escapeAs c with
    | some escaped => ['\\', escaped]
    | none => [c]

def quoted (s : List Char) : List Char := '"' :: escape s ++ ['"']

def lead (first : Bool) : List Char := if first then [] else [',']

def commaText : Bool → List (List Char) → List Char
  | _, [] => []
  | first, t :: ts => lead first ++ t ++ commaText false ts

def elemTexts (elemText : Int → List Char) (offset elemSize : Nat) : Nat → Int → List (List Char)
  | 0, _ => []
  | n + 1, field =>
    elemText (field - offset) :: elemTexts elemText offset elemSize n (field + elemSize)

mutual

def text (mem : Mem (List Char)) : Descr → Int → List Char
  | .boolean f, val =>
    if (mem (val + f.offset)).toWord ≠ 0#32 then ['t', 'r', 'u', 'e'] else ['f', 'a', 'l', 's', 'e']
  | .string f, val => quoted (mem (val + f.offset)).toText
  | .array f elementDescr _, val =>
    '[' :: commaText true (elemTexts (text mem elementDescr) elementDescr.offset
      (getElemSize elementDescr) (mem (val + elementDescr.offset)).toWord.toNat (val + f.offset)) ++
      [']']
  | .object f subDescr, val =>
    '\x7b' :: commaText true (fieldTexts mem subDescr (val + f.offset)) ++ ['\x7d']
  | .number f, val => printkDec (mem (val + f.offset)).toWord

def fieldTexts (mem : Mem (List Char)) : List Descr → Int → List (List Char)
  | [], _ => []
  | d :: sub, val =>
    (quoted d.field.fieldName ++ ':' :: text mem d val) :: fieldTexts mem sub val

end

abbrev Encoder : Type 1 := (S : Type) → (List Char → S → Except Int S) → S → Except Int S

def feed {S : Type} (appendBytes : List Char → S → Except Int S) (pieces : List (List Char))
    (data : S) : Except Int S :=
  pieces.foldlM (fun data bytes => appendBytes bytes data) data

/-- Whatever takes the bytes gets the text `t`, in the same pieces. -/
def Feeds (op : Encoder) (t : List Char) : Prop :=
  ∃ pieces : List (List Char), pieces.flatten = t ∧
    ∀ S appendBytes data, op S appendBytes data = feed appendBytes pieces data

theorem feeds_ok : Feeds (fun _ _ => .ok) [] := ⟨[], rfl, fun _ _ _ => rfl⟩

theorem feeds_append (t : List Char) : Feeds (fun _ appendBytes => appendBytes t) t :=
  ⟨[t], by simp, fun _ _ _ => by simp [feed]⟩

theorem Feeds.bind {op op' : Encoder} {t t' : List Char} (h : Feeds op t) (h' : Feeds op' t') :
    Feeds (fun S appendBytes data => op S appendBytes data >>= op' S appendBytes) (t ++ t') := by
  obtain ⟨ps, rfl, hps⟩ := h
  obtain ⟨ps', rfl, hps'⟩ := h'
  refine ⟨ps ++ ps', flatten_append, fun S appendBytes data => ?_⟩
  dsimp only
  rw [feed, foldlM_append, hps, funext (hps' S appendBytes)]
  rfl

theorem feeds_escape (str : List Char) :
    Feeds (fun _ appendBytes => jsonEscapeInternal appendBytes str) (escape str) := by
  induction str with
  | nil => exact feeds_ok
  | cons c str ih =>
    have hc : Feeds (fun _ appendBytes data => match escapeAs c with
        | some escaped => appendBytes ['\\', escaped] data
        | none => appendBytes [c] data)
        (match escapeAs c with | some escaped => ['\\', escaped] | none => [c]) := by
      cases escapeAs c <;> exact feeds_append _
    exact hc.bind ih

theorem feeds_str (str : List Char) :
    Feeds (fun _ appendBytes => strEncode appendBytes str) (quoted str) :=
  (feeds_append ['"']).bind ((feeds_escape str).bind (feeds_append ['"']))

theorem printkDecLoop_length {k pos : Nat} (n remainder : Nat) (found : Bool) (h : pos < 10 ^ k) :
    (printkDecLoop n pos remainder found).length ≤ k + 1 := by
  induction n generalizing k pos remainder found with
  | zero => simp [printkDecLoop]
  | succ n ih =>
    rw [printkDecLoop]
    split_ifs with hpos
    · simp
    obtain _ | k := k
    · omega
    have hrest := ih (remainder % (pos + 1)) (found || decide (pos < remainder))
      (Nat.div_lt_of_lt_mul (by rwa [← Nat.pow_succ'] : pos < 10 * 10 ^ k))
    rw [length_append]
    split_ifs <;> simp <;> omega

theorem feeds_num (num : BitVec 32) :
    Feeds (fun _ appendBytes => numEncode appendBytes num) (printkDec num) := by
  have hlen (n : Nat) : (printkDecUlong n).length ≤ 10 := printkDecLoop_length _ _ _ (by decide)
  have hshort : ¬ 12 ≤ (printkDec num).length := by
    unfold printkDec
    split_ifs
    · rw [length_cons]
      have := hlen (-num).toNat
      omega
    · have := hlen num.toNat
      omega
  obtain ⟨pieces, hflat, hfeed⟩ := feeds_append (printkDec num)
  exact ⟨pieces, hflat, fun S appendBytes data => (if_neg hshort).trans (hfeed S appendBytes data)⟩

theorem feeds_bool (w : BitVec 32) : Feeds (fun _ appendBytes => boolEncode appendBytes w)
    (if w ≠ 0#32 then ['t', 'r', 'u', 'e'] else ['f', 'a', 'l', 's', 'e']) := by
  unfold boolEncode
  split_ifs <;> exact feeds_append _

theorem feeds_comma (more : Bool) :
    Feeds (fun _ appendBytes => appendComma appendBytes more) (if more then [','] else []) := by
  unfold appendComma
  split_ifs
  · exact feeds_append _
  · exact feeds_ok

theorem feeds_elems {encodeElem : Int → Encoder} {elemText : Int → List Char}
    (h : ∀ val, Feeds (encodeElem val) (elemText val)) (offset elemSize n : Nat) (field : Int) :
    Feeds (fun S appendBytes => arrElems appendBytes (encodeElem · S appendBytes) offset elemSize n
      field) (commaText true (elemTexts elemText offset elemSize n field)) := by
  induction n generalizing field with
  | zero => exact feeds_ok
  | succ n ih =>
    have hrest : commaText false (elemTexts elemText offset elemSize n (field + elemSize)) =
        (if decide (0 < n) then [','] else []) ++
          commaText true (elemTexts elemText offset elemSize n (field + elemSize)) := by
      cases n <;> simp [elemTexts, commaText, lead]
    rw [elemTexts, commaText, hrest]
    exact (h _).bind ((feeds_comma _).bind (ih (field + elemSize)))

mutual

theorem feeds_encode (mem : Mem (List Char)) : ∀ (d : Descr) (val : Int),
    Feeds (fun _ appendBytes => encode appendBytes mem d val) (text mem d val)
  | .boolean f, val => by
    rw [text]
    exact feeds_bool _
  | .string f, val => by
    rw [text]
    exact feeds_str _
  | .number f, val => by
    rw [text]
    exact feeds_num _
  | .array f elementDescr nElements, val => by
    rw [text]
    exact (feeds_append ['[']).bind ((feeds_elems (feeds_encode mem elementDescr) _ _ _ _).bind
      (feeds_append [']']))
  | .object f subDescr, val => by
    rw [text]
    exact (feeds_append ['\x7b']).bind ((feeds_fields mem subDescr _).bind (feeds_append ['\x7d']))

theorem feeds_fields (mem : Mem (List Char)) : ∀ (sub : List Descr) (val : Int),
    Feeds (fun _ appendBytes => encodeFields appendBytes mem sub val)
      (commaText true (fieldTexts mem sub val))
  | [], val => by
    rw [fieldTexts]
    exact feeds_ok
  | d :: sub, val => by
    have hrest : commaText false (fieldTexts mem sub val) =
        (if !sub.isEmpty then [','] else []) ++ commaText true (fieldTexts mem sub val) := by
      cases sub <;> simp [fieldTexts, commaText, lead]
    have h := (feeds_str d.field.fieldName).bind ((feeds_append [':']).bind
      ((feeds_encode mem d val).bind
        ((feeds_comma (!sub.isEmpty)).bind (feeds_fields mem sub val))))
    rw [fieldTexts, commaText, hrest]
    simp only [lead, if_true, nil_append, append_assoc, cons_append] at h ⊢
    exact h

end

def objText (mem : Mem (List Char)) (descr : List Descr) (val : Int) : List Char :=
  '\x7b' :: commaText true (fieldTexts mem descr val) ++ ['\x7d']

variable {mem : Mem (List Char)} {descr : List Descr} {val : Int} {bufSize : Nat}

theorem feeds_obj (mem : Mem (List Char)) (descr : List Descr) (val : Int) :
    Feeds (fun _ appendBytes => jsonObjEncode appendBytes mem descr val) (objText mem descr val) :=
  (feeds_append ['\x7b']).bind ((feeds_fields mem descr val).bind (feeds_append ['\x7d']))

def recordBytes (bytes : List Char) (pieces : List (List Char)) : Except Int (List (List Char)) :=
  .ok (pieces ++ [bytes])

/-- The bytes of each call of `append_bytes`. -/
def appended (mem : Mem (List Char)) (descr : List Descr) (val : Int) : List (List Char) :=
  (jsonObjEncode recordBytes mem descr val []).toOption.getD []

theorem feed_recordBytes (pieces acc : List (List Char)) :
    feed recordBytes pieces acc = .ok (acc ++ pieces) := by
  induction pieces generalizing acc with
  | nil =>
    rw [append_nil]
    rfl
  | cons bytes rest ih => exact (ih _).trans (by rw [append_assoc, singleton_append])

theorem appended_spec (mem : Mem (List Char)) (descr : List Descr) (val : Int) :
    (appended mem descr val).flatten = objText mem descr val ∧ ∀ S appendBytes (data : S),
      jsonObjEncode appendBytes mem descr val data =
        feed appendBytes (appended mem descr val) data := by
  obtain ⟨pieces, hflat, hfeed⟩ := feeds_obj mem descr val
  have heq : appended mem descr val = pieces := by
    have hrecord := (hfeed _ recordBytes []).trans (feed_recordBytes pieces [])
    dsimp only at hrecord
    rw [appended, hrecord]
    rfl
  rw [heq]
  exact ⟨hflat, hfeed⟩

theorem feed_appendBytesToBuf (pieces : List (List Char)) {a : Appender}
    (h : a.buffer.length ≤ a.size) : feed appendBytesToBuf pieces a =
      if a.size < a.buffer.length + pieces.flatten.length then .error (-eNoMem)
      else .ok { a with buffer := a.buffer ++ pieces.flatten } := by
  induction pieces generalizing a with
  | nil =>
    rw [flatten_nil, length_nil, append_nil, if_neg (by omega)]
    rfl
  | cons bytes rest ih =>
    have hfeed : feed appendBytesToBuf (bytes :: rest) a =
        appendBytesToBuf bytes a >>= feed appendBytesToBuf rest := rfl
    rw [hfeed, appendBytesToBuf, flatten_cons, length_append]
    by_cases hfull : a.size - a.buffer.length < bytes.length
    · rw [if_pos hfull, if_pos (by omega)]
      rfl
    · rw [if_neg hfull]
      refine (ih (by simp only [length_append]; omega)).trans ?_
      simp only [length_append, append_assoc, Nat.add_assoc]

theorem encodeBuf_eq (mem : Mem (List Char)) (descr : List Descr) (val : Int) (bufSize : Nat) :
    jsonObjEncodeBuf mem descr val bufSize =
      if bufSize < (objText mem descr val).length then .error (-eNoMem)
      else .ok (objText mem descr val) := by
  obtain ⟨hflat, hfeed⟩ := appended_spec mem descr val
  rw [jsonObjEncodeBuf, hfeed, feed_appendBytesToBuf _ (Nat.zero_le _), hflat, length_nil,
    Nat.zero_add]
  split_ifs <;> rfl

theorem buffer_of_encodeBuf {t : List Char} (h : jsonObjEncodeBuf mem descr val bufSize = .ok t) :
    t = objText mem descr val := by
  rw [encodeBuf_eq] at h
  split_ifs at h
  exact (Except.ok.inj h).symm

def measureBytes (bytes : List Char) (total : BitVec 32) : Except Int (BitVec 32) :=
  .ok (total + BitVec.ofNat 32 bytes.length)

def jsonCalcEncodedLen (mem : Mem (List Char)) (descr : List Descr) (val : Int) : Int :=
  match jsonObjEncode measureBytes mem descr val 0 with
  | .error ret => ret
  | .ok total => total.toInt

/-- The offsets that `append_bytes_to_buf` writes to, up to the call that fails. -/
def written (size : Nat) : Nat → List (List Char) → List Nat
  | _, [] => []
  | used, bytes :: rest =>
    if size - used < bytes.length then []
    else range' used (bytes.length + 1) ++ written size (used + bytes.length) rest

structure LengthRight (mem : Mem (List Char)) (descr : List Descr) (val : Int) (bufSize : Nat) :
    Prop where
  measured : jsonCalcEncodedLen mem descr val = (appended mem descr val).flatten.length
  fits : (∃ t, jsonObjEncodeBuf mem descr val bufSize = .ok t) ↔
    (appended mem descr val).flatten.length + 1 ≤ bufSize
  inside : ∀ i ∈ written bufSize 0 (appended mem descr val), i < bufSize

theorem feed_measureBytes (pieces : List (List Char)) (total : BitVec 32) :
    feed measureBytes pieces total = .ok (total + BitVec.ofNat 32 pieces.flatten.length) := by
  induction pieces generalizing total with
  | nil =>
    simp
    rfl
  | cons bytes rest ih =>
    refine (ih _).trans ?_
    rw [flatten_cons, length_append, BitVec.ofNat_add, BitVec.add_assoc]

theorem written_inside_iff {size used : Nat} (pieces : List (List Char)) (h : used ≤ size) :
    (∀ i ∈ written size used pieces, i < size) ↔
      ∀ k < pieces.length, used + (pieces.take (k + 1)).flatten.length ≠ size := by
  induction pieces generalizing used with
  | nil => simp [written]
  | cons bytes rest ih =>
    rw [written, length_cons, Nat.forall_lt_succ_left]
    simp only [take_succ_cons, take_zero, flatten_cons, flatten_nil, append_nil, length_append,
      ← Nat.add_assoc]
    split_ifs with hfull
    · refine iff_of_true nofun ⟨by omega, fun k _ => by omega⟩
    · rw [forall_mem_append, ih (by omega)]
      refine and_congr_left fun _ => ?_
      simp only [mem_range'_1]
      constructor
      · intro hall
        have := hall (used + bytes.length) (by omega)
        omega
      · intro hne i hi
        omega

theorem toInt_ofNat_iff (n : Nat) : (BitVec.ofNat 32 n).toInt = n ↔ n < 2 ^ 31 := by
  rw [BitVec.toInt_eq_toNat_cond, BitVec.toNat_ofNat]
  split_ifs <;> omega

/-- The lengths are right exactly if they fit an `ssize_t` and no call of `append_bytes` ends where
the buffer ends: the terminating null character is then written behind it. -/
theorem lengthRight_iff (mem : Mem (List Char)) (descr : List Descr) (val : Int) (bufSize : Nat) :
    (∀ S appendBytes (data : S), jsonObjEncode appendBytes mem descr val data =
      feed appendBytes (appended mem descr val) data) ∧
    (LengthRight mem descr val bufSize ↔ (appended mem descr val).flatten.length < 2 ^ 31 ∧
      ∀ k < (appended mem descr val).length,
        ((appended mem descr val).take (k + 1)).flatten.length ≠ bufSize) := by
  obtain ⟨hflat, hfeed⟩ := appended_spec mem descr val
  have hmeasured : jsonCalcEncodedLen mem descr val = (appended mem descr val).flatten.length ↔
      (appended mem descr val).flatten.length < 2 ^ 31 := by
    rw [jsonCalcEncodedLen, hfeed, feed_measureBytes]
    simp only [BitVec.ofNat_eq_ofNat, BitVec.zero_add, toInt_ofNat_iff]
  have hinside := written_inside_iff (appended mem descr val) (Nat.zero_le bufSize)
  simp only [Nat.zero_add] at hinside
  refine ⟨hfeed, fun h => ⟨hmeasured.mp h.measured, hinside.mp h.inside⟩, fun ⟨hlen, hends⟩ =>
    ⟨hmeasured.mpr hlen, ?_, hinside.mpr hends⟩⟩
  have hpos : 0 < (appended mem descr val).length := by
    rw [length_pos_iff]
    rintro hnil
    rw [hnil] at hflat
    cases hflat
  have hlast := hends ((appended mem descr val).length - 1) (by omega)
  rw [Nat.sub_add_cancel hpos, take_length] at hlast
  rw [encodeBuf_eq, ← hflat]
  split_ifs with hfull
  · exact iff_of_false nofun (by omega)
  · exact iff_of_true ⟨_, rfl⟩ (by omega)

def flagDescr : List Descr := [.boolean ⟨['a'], 0, 1⟩]

/-- The text of 10 characters is accepted by a buffer of 10 bytes, with an 11th behind it. -/
theorem null_behind_buffer :
    (jsonObjEncodeBuf (fun _ => .word 1#32) flagDescr 0 10).toOption.map length = some 10 ∧
    10 ∈ written 10 0 (appended (fun _ => .word 1#32) flagDescr 0) := by
  decide

end Zephyr.Json
