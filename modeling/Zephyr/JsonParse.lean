import Zephyr.JsonLexer

/-! The parser on the text of the encoder: a struct is parsed back at the same offsets and nothing
else is written, unless its descriptor has arrays of arrays, for which the two sides look for the
inner counts in different places. `json_escape` escapes a text in the buffer that holds it. -/

namespace Zephyr.Json

open Function List

variable {m : Mem (List Char)} {δ val : Int} {p p' p'' : Parser} {pos pos' stop : Nat} {a : Int}

def Descr.isArray : Descr → Bool
  | .array _ _ _ => true
  | _ => false

mutual

def Within (lo hi : Int) : Descr → Prop
  | .number f => lo ≤ f.offset ∧ f.offset + 4 ≤ hi
  | .string f => lo ≤ f.offset ∧ f.offset + 4 ≤ hi
  | .boolean f => lo ≤ f.offset ∧ f.offset + 1 ≤ hi
  | .object f sub => WithinAll (lo - f.offset) (hi - f.offset) sub
  | .array f elem n => (lo ≤ f.offset ∧ f.offset + n * getElemSize elem ≤ hi) ∧
      lo ≤ elem.offset ∧ elem.offset + 4 ≤ hi

def WithinAll (lo hi : Int) : List Descr → Prop
  | [] => True
  | d :: sub => Within lo hi d ∧ WithinAll lo hi sub

end

mutual

/-- Descriptors as the macros of `json.h` build them for the structs of a C compiler: an element of
an array is no array and has the size that `get_elem_size` gives, and the number of elements is
stored outside the array. -/
def Sound : Descr → Prop
  | .number _ => True
  | .string _ => True
  | .boolean _ => True
  | .object _ sub => sub.length ≤ 30 ∧ SoundAll sub
  | .array f elem n => (elem.isArray = false ∧ 0 < getElemSize elem ∧
      Within elem.offset (elem.offset + getElemSize elem) elem ∧
      (elem.offset + 4 ≤ f.offset ∨ f.offset + n * getElemSize elem ≤ elem.offset)) ∧ Sound elem

def SoundAll : List Descr → Prop
  | [] => True
  | d :: sub => ('\x00' ∉ d.field.fieldName ∧ escape d.field.fieldName = d.field.fieldName) ∧
      Sound d ∧ SoundAll sub

end

mutual

/-- The memory at `val` holds a value of the described struct. -/
def Value (m : Mem (List Char)) : Descr → Int → Prop
  | .number f, val => ∃ w, m (val + f.offset) = .word w
  | .string f, val => ∃ s, m (val + f.offset) = .ptr s ∧ '\x00' ∉ s
  | .boolean f, val => m (val + f.offset) = .word 0#32 ∨ m (val + f.offset) = .word 1#32
  | .object f sub, val => ValueAll m sub (val + f.offset)
  | .array f elem n, val => ∃ w, m (val + elem.offset) = .word w ∧ w.toNat ≤ n ∧
      ∀ i < w.toNat, Value m elem (val + f.offset + i * getElemSize elem - elem.offset)

def ValueAll (m : Mem (List Char)) : List Descr → Int → Prop
  | [], _ => True
  | d :: sub, val => Value m d val ∧ ValueAll m sub val

end

mutual

def Scalar (m : Mem (List Char)) : Descr → Int → Int → Prop
  | .number f, val, a => a = val + f.offset
  | .string f, val, a => a = val + f.offset
  | .boolean f, val, a => a = val + f.offset
  | .object f sub, val, a => ScalarAny m sub (val + f.offset) a
  | .array f elem _, val, a => a = val + elem.offset ∨
      ∃ i < (m (val + elem.offset)).toWord.toNat,
        Scalar m elem (val + f.offset + i * getElemSize elem - elem.offset) a

def ScalarAny (m : Mem (List Char)) : List Descr → Int → Int → Prop
  | [], _, _ => False
  | d :: sub, val, a => Scalar m d val a ∨ ScalarAny m sub val a

end

/-- The new struct holds at an address what the old one does; a string in its escaped form, which
ends in the payload before the position of the lexer. -/
def Good (m : Mem (List Char)) (δ : Int) (p : Parser) (a : Int) : Prop :=
  match m a with
  | .word w => p.mem (a + δ) = .word w
  | .ptr s => ∃ q, p.mem (a + δ) = .ptr q ∧ q + (escape s).length < p.lexer.pos ∧
      At p.chars q (escape s ++ ['\x00'])

/-- The text from `pos` to `pos'` has been parsed into the given addresses. -/
structure Parsed (m : Mem (List Char)) (δ : Int) (C : Int → Prop) (p p' : Parser)
    (pos pos' stop : Nat) : Prop where
  ready : Ready p'.lexer pos' stop
  frame : ∀ a, ¬ C a → p'.mem (a + δ) = p.mem (a + δ)
  good : ∀ a, C a → Good m δ p' a
  chars : ∀ i, i < pos ∨ pos' ≤ i → p'.chars i = p.chars i

variable {t : List Char}

theorem At.congr {chars chars' : Nat → Char} (h : At chars pos t)
    (he : ∀ i, pos ≤ i → i < pos + t.length → chars' i = chars i) : At chars' pos t := by
  induction t generalizing pos with
  | nil => rfl
  | cons c t ih =>
    rw [at_cons] at h ⊢
    rw [length_cons] at he
    exact ⟨(he pos (by omega) (by omega)).trans h.1,
      ih h.2 fun i hi hlt => he i (by omega) (by omega)⟩

theorem Good.mono (h : Good m δ p a) (hmem : p'.mem (a + δ) = p.mem (a + δ))
    (hpos : p.lexer.pos ≤ p'.lexer.pos) (hchars : ∀ i < p.lexer.pos, p'.chars i = p.chars i) :
    Good m δ p' a := by
  unfold Good at h ⊢
  cases hm : m a with
  | word w =>
    simp only [hm] at h ⊢
    exact hmem.trans h
  | ptr s =>
    simp only [hm] at h ⊢
    obtain ⟨q, hq, hlt, hat⟩ := h
    refine ⟨q, hmem.trans hq, by omega, hat.congr fun i _ hi => hchars i ?_⟩
    simp only [length_append, length_singleton] at hi
    omega

theorem Parsed.trans {C C' : Int → Prop} {pos'' : Nat} (h : Parsed m δ C p p' pos pos' stop)
    (h' : Parsed m δ C' p' p'' pos' pos'' stop) (hle : pos ≤ pos') (hle' : pos' ≤ pos'') :
    Parsed m δ (fun a => C a ∨ C' a) p p'' pos pos'' stop where
  ready := h'.ready
  frame a ha := (h'.frame a fun hc => ha (.inr hc)).trans (h.frame a fun hc => ha (.inl hc))
  good a ha := by
    by_cases hc : C' a
    · exact h'.good a hc
    · refine (h.good a (ha.resolve_right hc)).mono (h'.frame a hc) ?_ fun i hi => h'.chars i ?_
      · rw [h.ready.pos, h'.ready.pos]
        exact hle'
      · rw [h.ready.pos] at hi
        exact .inl hi
  chars i hi := (h'.chars i (by omega)).trans (h.chars i (by omega))

variable {l : Lexer}

theorem parsed_store {chars' : Nat → Char} (cell : Cell Nat) (hl : Ready l pos' stop)
    (hchars : ∀ i, i < pos ∨ pos' ≤ i → chars' i = p.chars i)
    (hgood : Good m δ ⟨l, chars', update p.mem (a + δ) cell⟩ a) :
    Parsed m δ (· = a) p ⟨l, chars', update p.mem (a + δ) cell⟩ pos pos' stop where
  ready := hl
  frame b hb := update_of_ne (fun he => hb (by omega)) _ _
  good b hb := hb ▸ hgood
  chars := hchars

def Follows (c : Char) : Prop := isDigit c = false ∧ c ≠ '.'

def Decodes (m : Mem (List Char)) (δ : Int) (d : Descr) (val : Int) : Prop :=
  ∀ p pos stop c, Ready p.lexer pos stop → At p.chars pos (text m d val ++ [c]) → Follows c →
    pos + (text m d val).length < stop →
    ∃ token l ret p', lexerNext p.chars p.lexer = (some token, l) ∧ elementToken token.type = true ∧
      decodeValue d token (val + d.offset + δ) (val + δ) (p.withLexer l) = (ret, p') ∧ 0 ≤ ret ∧
      Parsed m δ (Scalar m d val) p p' pos (pos + (text m d val).length) stop

variable {f : Field} {C : Int → Prop}

theorem decodes_number (hv : Value m (.number f) val) : Decodes m δ (.number f) val := by
  obtain ⟨w, hw⟩ := hv
  have htext : text m (.number f) val = printkDec w := by
    rw [text, hw]
    rfl
  intro p pos stop c hready hat hc hlt
  rw [htext] at hat hlt ⊢
  obtain ⟨l, hnext, hl⟩ := lexerNext_number w hready hat hc hlt
  have hread : readRun p.chars pos (printkDec w).length = printkDec w := (at_append.mp hat).1
  refine ⟨_, l, 0, _, hnext, rfl, ?_, le_rfl, parsed_store (.word w) hl (fun _ _ => rfl) ?_⟩
  · simp only [decodeValue, equivalentTypes, decodeNum, Parser.withLexer, Parser.store,
      Nat.add_sub_cancel_left, hread, strtol_printkDec]
    simp [Descr.offset, Descr.field]
  · simp [Good, hw]

theorem decodes_boolean (hv : Value m (.boolean f) val) : Decodes m δ (.boolean f) val := by
  obtain ⟨b, hb⟩ : ∃ b : Bool, m (val + f.offset) = .word (if b then 1#32 else 0#32) := by
    obtain h | h := hv
    · exact ⟨false, h⟩
    · exact ⟨true, h⟩
  have htext : text m (.boolean f) val = boolText b := by
    rw [text, hb]
    cases b <;> rfl
  intro p pos stop c hready hat hc hlt
  rw [htext] at hat hlt ⊢
  obtain ⟨l, hnext, hl⟩ := lexerNext_boolean b hready (at_append.mp hat).1 (by omega)
  refine ⟨_, l, 0, _, hnext, by cases b <;> rfl, ?_, le_rfl,
    parsed_store (.word (if b then 1#32 else 0#32)) hl (fun _ _ => rfl) ?_⟩
  · cases b <;> rfl
  · simp [Good, hb]

theorem decodes_string (hv : Value m (.string f) val) : Decodes m δ (.string f) val := by
  obtain ⟨s, hs, hnul⟩ := hv
  have htext : text m (.string f) val = quoted s := by
    rw [text, hs]
    rfl
  intro p pos stop c hready hat hc hlt
  rw [htext] at hat hlt ⊢
  have hat := (at_append.mp hat).1
  have hlen : (quoted s).length = (escape s).length + 2 := by simp [quoted]
  obtain ⟨l, hnext, hl⟩ := lexerNext_string hready hnul hat (by omega)
  refine ⟨_, l, 0, _, hnext, rfl, rfl, le_rfl, parsed_store (.ptr (pos + 1)) hl (fun i hi => ?_) ?_⟩
  · exact update_of_ne (by dsimp only; omega) _ _
  · have hbody : At p.chars (pos + 1) (escape s) := by
      rw [quoted, cons_append, at_cons, at_append] at hat
      exact hat.2.1
    simp only [Good, hs]
    refine ⟨pos + 1, update_self .., ?_, ?_⟩
    · have := hl.pos
      simp only [Parser.withLexer]
      omega
    · rw [at_append]
      refine ⟨hbody.congr fun i _ hi => update_of_ne (by omega) _ _, ?_⟩
      rw [at_cons]
      exact ⟨update_self .., rfl⟩

theorem commaText_follows (ts : List (List Char)) {e : Char} (he : Follows e) :
    ∃ c rest, commaText false ts ++ [e] = c :: rest ∧ Follows c := by
  cases ts with
  | nil => exact ⟨e, [], rfl, he⟩
  | cons t ts => exact ⟨',', t ++ commaText false ts ++ [e], rfl, by decide, by decide⟩

theorem decodeValue_val {d : Descr} (h : d.isArray = false) (token : Token) (field val val' : Int)
    (p : Parser) : decodeValue d token field val p = decodeValue d token field val' p := by
  cases d with
  | array f elem n => exact nomatch h
  | number f => rfl
  | string f => rfl
  | boolean f => rfl
  | object f sub => rfl

theorem Parsed.of_withLexer {start : Nat}
    (h : Parsed m δ C (p.withLexer l) p' start pos' stop) (hle : pos ≤ start) :
    Parsed m δ C p p' pos pos' stop :=
  ⟨h.ready, h.frame, h.good, fun i hi => h.chars i (by omega)⟩

theorem Parsed.congr_pos {pos'' : Nat} (h : Parsed m δ C p p' pos pos' stop)
    (he : pos' = pos'') : Parsed m δ C p p' pos pos'' stop :=
  he ▸ h

variable {chars : Nat → Char} {first : Bool}

theorem arrNext_lead (h : Ready l pos stop) (hat : At chars pos (lead first ++ t))
    (hlt : pos + (lead first).length < stop) :
    ∃ l', Ready l' (pos + (lead first).length) stop ∧
      ∀ value l'', lexerNext chars l' = (some value, l'') → elementToken value.type = true →
        arrNext chars l = (some value, l'') := by
  cases first with
  | true => exact ⟨l, h, fun value l'' hv he => arrNext_first hv he⟩
  | false => exact arrNext_comma h (Nat.lt_of_succ_lt hlt) (at_cons.mp hat).1

variable {elem : Descr}

theorem arrLoop_elem {field : Int} {e : Char}
    (count lastElem val : Int) (fuel : Nat) (harr : elem.isArray = false)
    (hdec : Decodes m δ elem (field - elem.offset)) (hready : Ready p.lexer pos stop)
    (hat : At p.chars pos (lead first ++ text m elem (field - elem.offset) ++ e :: t))
    (he : Follows e) (hlt : pos + (lead first ++ text m elem (field - elem.offset)).length < stop)
    (hlast : field + δ ≠ lastElem) :
    ∃ p', Parsed m δ (Scalar m elem (field - elem.offset)) p p' pos
        (pos + (lead first ++ text m elem (field - elem.offset)).length) stop ∧
      arrLoop (decodeValue elem) (getElemSize elem) lastElem count val (fuel + 1) (field + δ) p =
        arrLoop (decodeValue elem) (getElemSize elem) lastElem count val fuel
          (field + δ + getElemSize elem)
          (p'.store count (.word ((p'.mem count).toWord + 1#32))) := by
  rw [length_append] at hlt ⊢
  rw [append_assoc] at hat
  obtain ⟨l₁, hready₁, hnext⟩ := arrNext_lead hready hat (by omega)
  have hat₁ : At p.chars (pos + (lead first).length)
      (text m elem (field - elem.offset) ++ [e]) := by
    have h := (at_append.mp hat).2
    rw [← singleton_append, ← append_assoc] at h
    exact (at_append.mp h).1
  obtain ⟨token, l, ret, p', htoken, helem, hvalue, hret, hparsed⟩ :=
    hdec (p.withLexer l₁) _ stop e hready₁ hat₁ he (by omega)
  refine ⟨p', (hparsed.of_withLexer (by omega)).congr_pos (by omega), ?_⟩
  have hend : token.type ≠ .listEnd := by
    intro h
    rw [h] at helem
    exact nomatch helem
  have hdecode : decodeValue elem token (field + δ) val (p.withLexer l) = (ret, p') := by
    rw [decodeValue_val harr token _ val (field - elem.offset + δ), ← hvalue, Int.sub_add_cancel]
    rfl
  have hnonneg : ¬ ret < 0 := by omega
  rw [arrLoop, hnext token l htoken helem]
  simp only [if_neg hend, if_neg hlast, hdecode, if_neg hnonneg]

def ElemScalar (m : Mem (List Char)) (elem : Descr) (n : Nat) (field a : Int) : Prop :=
  ∃ i < n, Scalar m elem (field + i * getElemSize elem - elem.offset) a

theorem elemScalar_succ {n : Nat} {field : Int} :
    ElemScalar m elem (n + 1) field a ↔ Scalar m elem (field - elem.offset) a ∨
      ElemScalar m elem n (field + getElemSize elem) a := by
  have hshift : ∀ i : Nat, field + ((i + 1 : Nat) : Int) * getElemSize elem - elem.offset =
      field + getElemSize elem + i * getElemSize elem - elem.offset := by
    intro i
    push_cast
    ring
  constructor
  · rintro ⟨i, hi, hs⟩
    cases i with
    | zero => exact .inl (by simpa using hs)
    | succ i => exact .inr ⟨i, by omega, hshift i ▸ hs⟩
  · rintro (hs | ⟨i, hi, hs⟩)
    · exact ⟨0, by omega, by simpa using hs⟩
    · exact ⟨i + 1, by omega, (hshift i).symm ▸ hs⟩

/-- The elements of an array have been parsed, and `count` holds their number. -/
structure ParsedElems (m : Mem (List Char)) (δ : Int) (C : Int → Prop) (count : Int) (total : Nat)
    (p p' : Parser) (pos pos' stop : Nat) : Prop where
  ready : Ready p'.lexer pos' stop
  counted : p'.mem (count + δ) = .word (BitVec.ofNat 32 total)
  frame : ∀ a, a ≠ count → ¬ C a → p'.mem (a + δ) = p.mem (a + δ)
  good : ∀ a, C a → Good m δ p' a
  chars : ∀ i, i < pos ∨ pos' ≤ i → p'.chars i = p.chars i

def elemsText (m : Mem (List Char)) (elem : Descr) (n : Nat) (field : Int) : List (List Char) :=
  elemTexts (text m elem) elem.offset (getElemSize elem) n field

theorem arrLoop_elems {count lastElem : Int} (val : Int)
    (harr : elem.isArray = false) (n : Nat) (field : Int) (fuel k : Nat) (first : Bool)
    (hdec : ∀ i < n, Decodes m δ elem (field + (i : Nat) * getElemSize elem - elem.offset))
    (hcount : ¬ ElemScalar m elem n field count) (hready : Ready p.lexer pos stop)
    (hat : At p.chars pos (commaText first (elemsText m elem n field) ++ [']']))
    (hlt : pos + (commaText first (elemsText m elem n field)).length < stop)
    (hfuel : n < fuel) (hk : p.mem (count + δ) = .word (BitVec.ofNat 32 k))
    (hlast : ∀ i < n, field + (i : Nat) * getElemSize elem + δ ≠ lastElem) :
    ∃ p', arrLoop (decodeValue elem) (getElemSize elem) lastElem (count + δ) val fuel
        (field + δ) p = (0, p') ∧
      ParsedElems m δ (ElemScalar m elem n field) count (k + n) p p' pos
        (pos + (commaText first (elemsText m elem n field)).length + 1) stop := by
  induction n generalizing p pos field fuel k first with
  | zero =>
    obtain ⟨fuel, rfl⟩ : ∃ n, fuel = n + 1 := ⟨fuel - 1, by omega⟩
    simp only [elemsText, elemTexts, commaText, nil_append, at_cons] at hat hlt ⊢
    obtain ⟨_, l, hnext, hend, hready'⟩ := arrNext_end hready hlt hat.1
    refine ⟨p.withLexer l, ?_, hready', hk, fun _ _ _ => rfl, ?_, fun _ _ => rfl⟩
    · rw [arrLoop, hnext]
      simp only [hend, if_true]
    · rintro a ⟨i, hi, -⟩
      omega
  | succ n ih =>
    obtain ⟨fuel, rfl⟩ : ∃ n, fuel = n + 1 := ⟨fuel - 1, by omega⟩
    have htexts : elemsText m elem (n + 1) field = text m elem (field - elem.offset) ::
        elemsText m elem n (field + getElemSize elem) := rfl
    have hshift : ∀ i : Nat, field + getElemSize elem + i * getElemSize elem =
        field + ((i + 1 : Nat) : Int) * getElemSize elem := by
      intro i
      push_cast
      ring
    rw [htexts, commaText] at hat hlt ⊢
    rw [length_append] at hlt ⊢
    obtain ⟨e, _, hrest, he⟩ :=
      commaText_follows (elemsText m elem n (field + getElemSize elem)) (e := ']')
        ⟨by decide, by decide⟩
    rw [append_assoc _ _ [']'], at_append] at hat
    rw [elemScalar_succ, not_or] at hcount
    obtain ⟨p₁, hparsed, hloop⟩ := arrLoop_elem (count + δ) lastElem val fuel harr
      (by simpa using hdec 0 (by omega)) hready (at_append.mpr (hrest ▸ hat)) he (by omega)
      (by simpa using hlast 0 (by omega))
    have hk₁ := (hparsed.frame count hcount.1).trans hk
    -- the count is the only cell that is written between two elements
    have hother : ∀ a, a ≠ count →
        (p₁.store (count + δ) (.word (BitVec.ofNat 32 (k + 1)))).mem (a + δ) = p₁.mem (a + δ) :=
      fun a ha => update_of_ne (by omega) _ _
    obtain ⟨p₂, hloop₂, h₂⟩ := ih (p := p₁.store (count + δ) (.word (BitVec.ofNat 32 (k + 1))))
      (field + getElemSize elem) fuel (k + 1) false
      (fun i hi => by rw [hshift]; exact hdec (i + 1) (by omega)) hcount.2 hparsed.ready
      (hat.2.congr fun i hi _ => hparsed.chars i (.inr (by omega))) (by omega) (by omega)
      (update_self ..) (fun i hi => by rw [hshift]; exact hlast (i + 1) (by omega))
    have hsucc : BitVec.ofNat 32 k + 1#32 = BitVec.ofNat 32 (k + 1) := (BitVec.ofNat_add ..).symm
    rw [show k + (n + 1) = k + 1 + n by omega, ← Nat.add_assoc pos]
    refine ⟨p₂, ?_, h₂.ready, h₂.counted, ?_, ?_, ?_⟩
    · rw [hloop, hk₁, Cell.toWord, hsucc, Int.add_right_comm]
      exact hloop₂
    · intro a hne hno
      rw [elemScalar_succ, not_or] at hno
      rw [h₂.frame a hne hno.2, hother a hne, hparsed.frame a hno.1]
    · intro a ha
      by_cases hin : ElemScalar m elem n (field + getElemSize elem) a
      · exact h₂.good a hin
      · have hfirst := (elemScalar_succ.mp ha).resolve_right hin
        have hne : a ≠ count := fun he => hcount.1 (he ▸ hfirst)
        refine (hparsed.good a hfirst).mono ((h₂.frame a hne hin).trans (hother a hne)) ?_
          fun i hi => h₂.chars i ?_
        · rw [hparsed.ready.pos, h₂.ready.pos]
          omega
        · rw [hparsed.ready.pos] at hi
          exact .inl hi
    · intro i hi
      exact (h₂.chars i (by omega)).trans (hparsed.chars i (by omega))

theorem text_pos (m : Mem (List Char)) (d : Descr) (val : Int) : 0 < (text m d val).length := by
  cases d with
  | number f =>
    obtain ⟨s, -, hne, h | h⟩ := printkDec_shape (m (val + f.offset)).toWord
    · rw [text, h]
      exact length_pos_iff.mpr hne
    · rw [text, h]
      exact Nat.succ_pos _
  | boolean f =>
    rw [text]
    split_ifs <;> decide
  | string f => simp [text, quoted]
  | object f sub => simp [text]
  | array f elem n => simp [text]

theorem length_le_commaText {ts : List (List Char)} (first : Bool) (h : ∀ t ∈ ts, 0 < t.length) :
    ts.length ≤ (commaText first ts).length := by
  induction ts generalizing first with
  | nil => exact Nat.zero_le _
  | cons t ts ih =>
    have ht := h t mem_cons_self
    have hts := ih false fun t ht => h t (mem_cons_of_mem _ ht)
    simp only [commaText, length_append, length_cons]
    omega

theorem length_elemsText (m : Mem (List Char)) (elem : Descr) (n : Nat) (field : Int) :
    (elemsText m elem n field).length = n := by
  induction n generalizing field with
  | zero => rfl
  | succ n ih => exact congrArg (· + 1) (ih _)

theorem elemsText_pos (m : Mem (List Char)) (elem : Descr) (n : Nat) (field : Int) :
    ∀ t ∈ elemsText m elem n field, 0 < t.length := by
  induction n generalizing field with
  | zero => exact nofun
  | succ n ih => exact forall_mem_cons.mpr ⟨text_pos m elem _, ih _⟩

theorem elem_extent {i n : Nat} (size : Nat) (hi : i < n) :
    (0 : Int) ≤ (i : Int) * size ∧ (i : Int) * size + size ≤ (n : Int) * size := by
  have hmul : (i + 1) * size ≤ n * size := Nat.mul_le_mul_right _ hi
  zify at hmul
  exact ⟨by positivity, by linarith⟩

mutual

theorem scalar_within : ∀ (d : Descr) (lo hi val a : Int), Within lo hi d → Sound d →
    Value m d val → Scalar m d val a → val + lo ≤ a ∧ a < val + hi
  | .number f, lo, hi, val, a, hw, _, _, ha => by
    rw [Within] at hw
    rw [Scalar] at ha
    omega
  | .string f, lo, hi, val, a, hw, _, _, ha => by
    rw [Within] at hw
    rw [Scalar] at ha
    omega
  | .boolean f, lo, hi, val, a, hw, _, _, ha => by
    rw [Within] at hw
    rw [Scalar] at ha
    omega
  | .object f sub, lo, hi, val, a, hw, hs, hv, ha => by
    rw [Within] at hw
    rw [Sound] at hs
    rw [Value] at hv
    rw [Scalar] at ha
    have := scalar_withinAll sub _ _ _ a hw hs.2 hv ha
    omega
  | .array f elem n, lo, hi, val, a, hw, hs, hv, ha => by
    rw [Within] at hw
    rw [Sound] at hs
    rw [Value] at hv
    rw [Scalar] at ha
    obtain ⟨w, hcount, hle, helems⟩ := hv
    obtain ha | ⟨i, hi, ha⟩ := ha
    · omega
    · rw [hcount] at hi
      have hbound := scalar_within elem _ _ _ a hs.1.2.2.1 hs.2 (helems i hi) ha
      have hextent := elem_extent (getElemSize elem) (Nat.lt_of_lt_of_le hi hle)
      omega

theorem scalar_withinAll : ∀ (sub : List Descr) (lo hi val a : Int), WithinAll lo hi sub →
    SoundAll sub → ValueAll m sub val → ScalarAny m sub val a → val + lo ≤ a ∧ a < val + hi
  | [], _, _, _, _, _, _, _, ha => by
    rw [ScalarAny] at ha
    exact ha.elim
  | d :: sub, lo, hi, val, a, hw, hs, hv, ha => by
    rw [WithinAll] at hw
    rw [SoundAll] at hs
    rw [ValueAll] at hv
    rw [ScalarAny] at ha
    obtain ha | ha := ha
    · exact scalar_within d lo hi val a hw.1 hs.2.1 hv.1 ha
    · exact scalar_withinAll sub lo hi val a hw.2 hs.2.2 hv.2 ha

end

theorem count_not_elem {n : Nat} {w : BitVec 32}
    (hs : Sound (.array f elem n)) (hle : w.toNat ≤ n) (hv : ∀ i < w.toNat,
      Value m elem (val + f.offset + (i : Nat) * getElemSize elem - elem.offset)) :
    ¬ ElemScalar m elem w.toNat (val + f.offset) (val + elem.offset) := by
  rintro ⟨i, hi, ha⟩
  have hbound := scalar_within elem _ _ _ _ hs.1.2.2.1 hs.2 (hv i hi) ha
  have hextent := elem_extent (getElemSize elem) (Nat.lt_of_lt_of_le hi hle)
  have hout := hs.1.2.2.2
  zify at hout
  omega

theorem decodes_array {n : Nat} (hs : Sound (.array f elem n))
    (hv : Value m (.array f elem n) val) (hdec : ∀ v, Value m elem v → Decodes m δ elem v) :
    Decodes m δ (.array f elem n) val := by
  obtain ⟨w, hcount, hle, helems⟩ := hv
  have hnot := count_not_elem hs hle helems
  obtain ⟨⟨harr, hsize, -, -⟩, -⟩ := hs
  have htext : text m (.array f elem n) val =
      '[' :: commaText true (elemsText m elem w.toNat (val + f.offset)) ++ [']'] := by
    rw [text, hcount]
    rfl
  have hlong := length_le_commaText true (elemsText_pos m elem w.toNat (val + f.offset))
  rw [length_elemsText] at hlong
  intro p pos stop c hready hat hc hlt
  rw [htext] at hat hlt ⊢
  simp only [cons_append, at_cons, length_cons, length_append, length_nil] at hat hlt ⊢
  obtain ⟨l, hnext, hl⟩ := lexerNext_punctuation hready (by omega) hat.1 rfl
    JsonTokens.noConfusion (by decide)
  have hlast : ∀ i < w.toNat, val + f.offset + (i : Nat) * getElemSize elem + δ ≠
      val + f.offset + δ + getElemSize elem * n := by
    intro i hi he
    have hmul : i * getElemSize elem = n * getElemSize elem := by
      zify
      linarith
    have := Nat.eq_of_mul_eq_mul_right hsize hmul
    omega
  obtain ⟨p', hloop, hp'⟩ := arrLoop_elems
    (p := (p.withLexer l).store (val + elem.offset + δ) (.word 0#32)) (val + δ) harr w.toNat
    (val + f.offset) (l.stop + 1 - l.pos) 0 true (fun i hi => hdec _ (helems i hi)) hnot hl
    (at_append.mp hat.2).1 (by omega) (by rw [hl.pos, hl.stop]; omega) (update_self ..)
    hlast
  refine ⟨_, l, 0, p', hnext, rfl, ?_, le_rfl, ?_, ?_, ?_, ?_⟩
  · rw [Int.add_right_comm val elem.offset δ] at hloop
    exact hloop
  · have hpos : pos + ((commaText true (elemsText m elem w.toNat (val + f.offset))).length +
        (0 + 1) + 1) = pos + 1 + (commaText true (elemsText m elem w.toNat
          (val + f.offset))).length + 1 := by omega
    rw [hpos]
    exact hp'.ready
  · intro a ha
    rw [Scalar, hcount, not_or] at ha
    rw [hp'.frame a ha.1 ha.2]
    exact update_of_ne (by omega) _ _
  · intro a ha
    rw [Scalar, hcount] at ha
    obtain rfl | ha := ha
    · simp only [Good, hcount, hp'.counted]
      simp
    · exact hp'.good a ha
  · exact fun i hi => hp'.chars i (by omega)

def fieldMask (k : Nat) : BitVec 32 := BitVec.ofNat 32 (2 ^ k - 1)

theorem fieldMask_bit {j : Nat} (k : Nat) (hj : j < 32) :
    (fieldMask k).getLsbD j = decide (j < k) := by
  rw [fieldMask, BitVec.getLsbD_ofNat]
  simp [hj]

theorem fieldMask_and {j k : Nat} (hj : j < 32) : fieldMask k &&& (1#32 <<< j) ≠ 0#32 ↔ j < k := by
  have htwo : (1#32 <<< j : BitVec 32) = BitVec.twoPow 32 j := rfl
  have hne : BitVec.twoPow 32 j ≠ 0#32 := by
    intro h
    have := congrArg (·.getLsbD j) h
    simp [hj] at this
  rw [htwo, BitVec.and_twoPow, fieldMask_bit k hj]
  by_cases hlt : j < k <;> simp [hne]

theorem fieldMask_or {k : Nat} : fieldMask k ||| (1#32 <<< k) = fieldMask (k + 1) := by
  have htwo : (1#32 <<< k : BitVec 32) = BitVec.twoPow 32 k := rfl
  rw [htwo]
  refine BitVec.eq_of_getLsbD_eq fun j hj => ?_
  rw [BitVec.getLsbD_or, fieldMask_bit k hj, fieldMask_bit (k + 1) hj, BitVec.getLsbD_twoPow]
  rw [Bool.eq_iff_iff]
  simp only [Bool.or_eq_true, Bool.and_eq_true, decide_eq_true_iff]
  omega

theorem fieldMask_nonneg {k : Nat} (hk : k ≤ 30) : 0 ≤ (fieldMask k).toInt := by
  rw [BitVec.toInt_eq_toNat_cond, fieldMask, BitVec.toNat_ofNat]
  have hpow : 2 ^ k ≤ 2 ^ 30 := Nat.pow_le_pow_right (by decide) hk
  omega

theorem findField_eq {kv : KeyValue} {k : Nat} {d : Descr}
    {rest : List Descr} (hname : At chars kv.key d.field.fieldName)
    (hlen : kv.keyLen = d.field.fieldName.length) (pre : List Descr) (i : Nat)
    (hk : k = i + pre.length) (hlt : k < 32) :
    findField chars (fieldMask k) kv i (decoders (pre ++ d :: rest)) =
      some (k, d.field, decodeValue d) := by
  induction pre generalizing i with
  | nil =>
    have hnot : ¬ (fieldMask k &&& (1#32 <<< i) ≠ 0#32) := by
      rw [fieldMask_and (by simp at hk; omega)]
      simp at hk
      omega
    have hread : ¬ readRun chars kv.key d.field.fieldName.length ≠ d.field.fieldName :=
      not_not.mpr hname
    rw [nil_append, decoders, findField, if_neg hnot, if_neg (not_not.mpr hlen), if_neg hread, hk]
    rfl
  | cons d' pre ih =>
    rw [length_cons] at hk
    have hset : fieldMask k &&& (1#32 <<< i) ≠ 0#32 := (fieldMask_and (by omega)).mpr (by omega)
    rw [cons_append, decoders, findField, if_pos hset]
    exact ih (i + 1) (by omega)

theorem objNext_lead {name t : List Char} (h : Ready l pos stop) (hname : '\x00' ∉ name)
    (hat : At chars pos (lead first ++ (quoted name ++ ':' :: t)))
    (hlt : pos + (lead first).length + (quoted name).length < stop) :
    ∃ l', Ready l' (pos + (lead first).length + (quoted name).length + 1) stop ∧
      ∀ value l'', lexerNext chars l' = (some value, l'') → elementToken value.type = true →
        objNext chars l =
          (some ⟨pos + (lead first).length + 1, (escape name).length, value⟩, l'') := by
  cases first with
  | true => exact objNext_first h hname hat hlt
  | false => exact objNext_comma h hname hat hlt

theorem objLoop_field {d : Descr} {e : Char}
    (pre rest : List Descr) (fuel : Nat) (hname : '\x00' ∉ d.field.fieldName)
    (hplain : escape d.field.fieldName = d.field.fieldName) (hlen : pre.length < 32)
    (hdec : Decodes m δ d val) (hready : Ready p.lexer pos stop) (hat : At p.chars pos
      (lead first ++ (quoted d.field.fieldName ++ ':' :: text m d val) ++ e :: t)) (he : Follows e)
    (hlt : pos + (lead first ++ (quoted d.field.fieldName ++ ':' :: text m d val)).length < stop) :
    ∃ p', Parsed m δ (Scalar m d val) p p' pos
        (pos + (lead first ++ (quoted d.field.fieldName ++ ':' :: text m d val)).length) stop ∧
      objLoop (decoders (pre ++ d :: rest)) (val + δ) (fuel + 1) (fieldMask pre.length) p =
        objLoop (decoders (pre ++ d :: rest)) (val + δ) fuel (fieldMask (pre.length + 1)) p' := by
  simp only [length_append, length_cons] at hlt ⊢
  have hat' : At p.chars pos (lead first ++ (quoted d.field.fieldName ++
      ':' :: (text m d val ++ [e] ++ t))) := by
    simpa using hat
  obtain ⟨l₁, hready₁, hnext⟩ := objNext_lead hready hname hat' (by omega)
  obtain ⟨hkey, hvalue⟩ := at_append.mp (at_append.mp hat').2
  obtain ⟨token, l, ret, p', htoken, helem, hdecode, hret, hparsed⟩ :=
    hdec (p.withLexer l₁) _ stop e hready₁ (at_append.mp (at_cons.mp hvalue).2).1 he (by omega)
  refine ⟨p', (hparsed.of_withLexer (by omega)).congr_pos (by omega), ?_⟩
  have hend : token.type ≠ .objectEnd := by
    intro h
    rw [h] at helem
    exact nomatch helem
  have hfind : findField p.chars (fieldMask pre.length)
      ⟨pos + (lead first).length + 1, (escape d.field.fieldName).length, token⟩ 0
      (decoders (pre ++ d :: rest)) = some (pre.length, d.field, decodeValue d) := by
    refine findField_eq ?_ (by rw [hplain]) pre 0 (Nat.zero_add _).symm hlen
    have hbody := (at_append.mp (at_cons.mp hkey).2).1
    rwa [hplain] at hbody
  have hvalue' : decodeValue d token (val + δ + d.field.offset) (val + δ) (p.withLexer l) =
      (ret, p') := by
    rw [← hdecode, Int.add_right_comm]
    rfl
  have hnonneg : ¬ ret < 0 := by omega
  rw [objLoop, hnext token l htoken helem]
  simp only [if_neg hend, hfind, hvalue', if_neg hnonneg, fieldMask_or]

variable {sub : List Descr}

theorem objLoop_fields (pre : List Descr) (fuel : Nat) (first : Bool)
    (hsound : SoundAll sub) (hlen : (pre ++ sub).length ≤ 30)
    (hdec : ∀ d ∈ sub, Decodes m δ d val) (hready : Ready p.lexer pos stop)
    (hat : At p.chars pos (commaText first (fieldTexts m sub val) ++ ['\x7d']))
    (hlt : pos + (commaText first (fieldTexts m sub val)).length < stop)
    (hfuel : sub.length < fuel) :
    ∃ p', objLoop (decoders (pre ++ sub)) (val + δ) fuel (fieldMask pre.length) p =
        ((fieldMask (pre ++ sub).length).toInt, p') ∧
      Parsed m δ (ScalarAny m sub val) p p' pos
        (pos + (commaText first (fieldTexts m sub val)).length + 1) stop := by
  induction sub generalizing p pos pre fuel first with
  | nil =>
    obtain ⟨fuel, rfl⟩ : ∃ n, fuel = n + 1 := ⟨fuel - 1, by omega⟩
    simp only [fieldTexts, commaText, nil_append, at_cons] at hat hlt ⊢
    obtain ⟨_, l, hnext, hend, hready'⟩ := objNext_end hready hlt hat.1
    refine ⟨p.withLexer l, ?_, hready', fun _ _ => rfl, ?_, fun _ _ => rfl⟩
    · rw [objLoop, hnext, append_nil]
      simp only [hend, if_true]
    · intro a ha
      exact ha.elim
  | cons d sub ih =>
    obtain ⟨fuel, rfl⟩ : ∃ n, fuel = n + 1 := ⟨fuel - 1, by omega⟩
    rw [fieldTexts, commaText] at hat hlt ⊢
    rw [length_append] at hlt
    simp only [length_append, length_cons] at hlen hfuel
    obtain ⟨e, _, hrest, he⟩ := commaText_follows (fieldTexts m sub val) (e := '\x7d')
      ⟨by decide, by decide⟩
    rw [append_assoc _ _ ['\x7d'], at_append] at hat
    obtain ⟨p₁, hparsed, hloop⟩ := objLoop_field pre sub fuel hsound.1.1 hsound.1.2
      (by omega) (hdec d mem_cons_self) hready (at_append.mpr (hrest ▸ hat)) he
      (by omega)
    obtain ⟨p₂, hloop₂, h₂⟩ := ih (p := p₁) (pre ++ [d]) fuel false hsound.2.2
      (by simp; omega) (fun d hd => hdec d (mem_cons_of_mem _ hd)) hparsed.ready
      (hat.2.congr fun i hi _ => hparsed.chars i (.inr (by omega))) (by omega) (by omega)
    rw [append_assoc, length_append] at hloop₂
    have htrans := hparsed.trans h₂ (by omega) (by omega)
    exact ⟨p₂, hloop.trans hloop₂, htrans.congr_pos (by simp only [length_append]; omega)⟩

theorem fieldTexts_pos (m : Mem (List Char)) (sub : List Descr) (val : Int) :
    ∀ t ∈ fieldTexts m sub val, 0 < t.length := by
  induction sub with
  | nil => exact nofun
  | cons d sub ih => exact forall_mem_cons.mpr ⟨by simp, ih⟩

theorem length_fieldTexts (m : Mem (List Char)) (sub : List Descr) (val : Int) :
    (fieldTexts m sub val).length = sub.length := by
  induction sub with
  | nil => rfl
  | cons d sub ih => exact congrArg (· + 1) ih

theorem objParse_fields (hsound : SoundAll sub) (hlen : sub.length ≤ 30)
    (hdec : ∀ d ∈ sub, Decodes m δ d val) (hready : Ready p.lexer pos stop)
    (hat : At p.chars pos (commaText true (fieldTexts m sub val) ++ ['\x7d']))
    (hlt : pos + (commaText true (fieldTexts m sub val)).length < stop) :
    ∃ p', objParse (decoders sub) (val + δ) p = ((fieldMask sub.length).toInt, p') ∧
      Parsed m δ (ScalarAny m sub val) p p' pos
        (pos + (commaText true (fieldTexts m sub val)).length + 1) stop := by
  have hlong := length_le_commaText true (fieldTexts_pos m sub val)
  rw [length_fieldTexts] at hlong
  exact objLoop_fields [] _ true hsound hlen hdec hready hat hlt
    (by rw [hready.pos, hready.stop]; omega)

theorem decodes_object (hsound : SoundAll sub)
    (hlen : sub.length ≤ 30) (hdec : ∀ d ∈ sub, Decodes m δ d (val + f.offset)) :
    Decodes m δ (.object f sub) val := by
  intro p pos stop c hready hat hc hlt
  rw [text] at hat hlt ⊢
  simp only [cons_append, at_cons, length_cons, length_append, length_nil] at hat hlt ⊢
  obtain ⟨l, hnext, hl⟩ := lexerNext_punctuation hready (by omega) hat.1 rfl
    JsonTokens.noConfusion (by decide)
  obtain ⟨p', hparse, hp'⟩ := objParse_fields (p := p.withLexer l) hsound hlen hdec hl
    (at_append.mp hat.2).1 (by omega)
  exact ⟨_, l, _, p', hnext, rfl, hparse, fieldMask_nonneg hlen,
    (hp'.of_withLexer (by omega)).congr_pos (by omega)⟩

mutual

theorem decodes (δ : Int) : ∀ (d : Descr) (val : Int), Sound d → Value m d val → Decodes m δ d val
  | .number _, _, _, hv => decodes_number hv
  | .string _, _, _, hv => decodes_string hv
  | .boolean _, _, _, hv => decodes_boolean hv
  | .array f elem n, val, hs, hv => decodes_array hs hv fun v hv => by
    rw [Sound] at hs
    exact decodes δ elem v hs.2 hv
  | .object f sub, val, hs, hv => by
    rw [Sound] at hs
    rw [Value] at hv
    exact decodes_object hs.2 hs.1 (decodesAll δ sub _ hs.2 hv)

theorem decodesAll (δ : Int) : ∀ (sub : List Descr) (val : Int), SoundAll sub →
    ValueAll m sub val → ∀ d ∈ sub, Decodes m δ d val
  | [], _, _, _ => nofun
  | d :: sub, val, hs, hv => by
    rw [SoundAll] at hs
    rw [ValueAll] at hv
    exact List.forall_mem_cons.mpr ⟨decodes δ d val hs.2.1 hv.1, decodesAll δ sub val hs.2.2 hv.2⟩

end

def Restored (m : Mem (List Char)) (δ : Int) (p : Parser) (a : Int) : Prop :=
  match m a with
  | .word w => p.mem (a + δ) = .word w
  | .ptr s => ∃ q, p.mem (a + δ) = .ptr q ∧ At p.chars q (escape s ++ ['\x00'])

theorem Good.restored (h : Good m δ p a) : Restored m δ p a := by
  unfold Good at h
  unfold Restored
  cases hm : m a with
  | word w =>
    simp only [hm] at h
    exact h
  | ptr s =>
    simp only [hm] at h
    obtain ⟨q, hq, -, hat⟩ := h
    exact ⟨q, hq, hat⟩

theorem fieldMask_toInt {k : Nat} (hk : k ≤ 30) : (fieldMask k).toInt = 2 ^ k - 1 := by
  have hpow : 2 ^ k ≤ 2 ^ 30 := Nat.pow_le_pow_right (by decide) hk
  rw [BitVec.toInt_eq_toNat_cond, fieldMask, BitVec.toNat_ofNat, Nat.mod_eq_of_lt (by omega),
    if_pos (by omega)]
  push_cast [Nat.one_le_two_pow]
  rfl

/-- A struct without arrays of arrays, encoded and parsed: every field is found, and every scalar
of the struct is restored. -/
theorem parse_encode {descr : List Descr} {bufSize data : Nat} {t : List Char}
    {payload : Nat → Char} {mem : Mem Nat} {val' : Int} (hlen : descr.length ≤ 30)
    (hsound : SoundAll descr) (hvalue : ValueAll m descr val)
    (hencode : jsonObjEncodeBuf m descr val bufSize = .ok t) (hpayload : At payload data t) :
    ∃ p, jsonObjParse payload data t.length descr mem val' = (2 ^ descr.length - 1, p) ∧
      ∀ a, ScalarAny m descr val a → Restored m (val' - val) p a := by
  have ht := buffer_of_encodeBuf hencode
  subst ht
  simp only [objText, cons_append, at_cons, length_cons, length_append, length_nil] at hpayload ⊢
  set n := (commaText true (fieldTexts m descr val)).length
  have hinit : Ready (lexerInit data (n + (0 + 1) + 1)) data (data + (n + (0 + 1) + 1)) :=
    ⟨rfl, rfl, rfl, rfl, rfl⟩
  obtain ⟨l, hnext, hl⟩ := lexerNext_punctuation hinit (by omega) hpayload.1 rfl
    JsonTokens.noConfusion (by decide)
  obtain ⟨p, hparse, hp⟩ := objParse_fields (p := ⟨l, payload, mem⟩) hsound hlen
    (decodesAll (val' - val) descr val hsound hvalue) hl hpayload.2 (by omega)
  rw [fieldMask_toInt hlen, add_sub_cancel] at hparse
  refine ⟨p, ?_, fun a ha => (hp.good a ha).restored⟩
  simp only [jsonObjParse, hnext]
  exact hparse

def listAt (t : List Char) (i : Nat) : Char := t.getD i '\x00'

theorem at_listAt (t : List Char) : At (listAt t) 0 t := by
  refine ext_getElem (by simp) fun i h h' => ?_
  simp [readRun, listAt, h']

def pairDescr : Descr := .object ⟨[], 4, 4⟩ [.number ⟨['c'], 0, 4⟩, .string ⟨['d'], 4, 4⟩]

def pairsDescr : List Descr := [.number ⟨['a'], 0, 4⟩, .array ⟨['b'], 8, 4⟩ pairDescr 2]

def pairsMem : Mem (List Char) := fun a =>
  if a = 0 then .word 0x80000000#32
  else if a = 4 then .word 2#32
  else if a = 8 ∨ a = 16 then .word (BitVec.ofInt 32 a)
  else .ptr ['"', 'x']

theorem parse_encode_pairs : ∃ t, jsonObjEncodeBuf pairsMem pairsDescr 0 100 = .ok t ∧
    ∃ p, jsonObjParse (listAt t) 0 t.length pairsDescr (fun _ => .word 0#32) 32 = (3, p) ∧
      ∀ a, ScalarAny pairsMem pairsDescr 0 a → Restored pairsMem 32 p a := by
  have hsize : getElemSize pairDescr = 8 := rfl
  have hoffset : pairDescr.offset = 4 := rfl
  have hsound : SoundAll pairsDescr := by
    simp only [pairsDescr, SoundAll, Sound, hsize, hoffset]
    simp [pairDescr, Within, WithinAll, Sound, SoundAll, Descr.isArray, Descr.field, escape,
      escapeAs]
  have hvalue : ValueAll pairsMem pairsDescr 0 := by
    simp only [pairsDescr, ValueAll, and_true]
    refine ⟨⟨_, rfl⟩, 2#32, rfl, by decide, fun i hi => ?_⟩
    have hi : i = 0 ∨ i = 1 := by
      have : i < 2 := hi
      omega
    obtain rfl | rfl := hi <;> exact ⟨⟨_, rfl⟩, ⟨_, rfl, by decide⟩, trivial⟩
  obtain ⟨t, ht⟩ : ∃ t, jsonObjEncodeBuf pairsMem pairsDescr 0 100 = .ok t := ⟨_, rfl⟩
  exact ⟨t, ht, parse_encode (by decide) hsound hvalue ht (at_listAt t)⟩

def rowsDescr : List Descr :=
  [.array ⟨['m'], 8, 4⟩ (.array ⟨[], 0, 4⟩ (.number ⟨[], 4, 4⟩) 2) 2]

def rowsMem : Mem (List Char) := fun a =>
  if a = 0 ∨ a = 4 then .word 1#32 else if a = 8 then .word 7#32 else .word 0#32

def rowsText : List Char := ['\x7b', '"', 'm', '"', ':', '[', '[', ']', ']', '\x7d']

/-- The encoder takes the second number of the row for the number of columns. -/
theorem rows_lost : jsonObjEncodeBuf rowsMem rowsDescr 0 100 = .ok rowsText ∧
    ∃ p, jsonObjParse (listAt rowsText) 0 rowsText.length rowsDescr (fun _ => .word 0#32) 0 =
        (1, p) ∧ ¬ Restored rowsMem 0 p 4 ∧ ¬ Restored rowsMem 0 p 8 := by
  refine ⟨rfl, _, rfl, fun h => ?_, fun h => ?_⟩
  · have hword : Cell.word 0#32 = (Cell.word 1#32 : Cell Nat) := h
    exact absurd hword (by decide)
  · have hword : Cell.word 0#32 = (Cell.word 7#32 : Cell Nat) := h
    exact absurd hword (by decide)

section

variable (buf : Nat → Char) (len bufSize : Nat)

def jsonCalcEscapedLen : Nat := len + (range len).countP fun pos => (escapeAs (buf pos)).isSome

/-- The loop of `json_escape`, with `next` and `dest` counted from the start of the buffer. -/
def escapeLoop (buf : Nat → Char) : Nat → Nat → Nat → Char
  | 0, _ => buf
  | next + 1, dest =>
    match escapeAs (buf next) with
    | some e => escapeLoop (update (update buf (dest - 1) e) (dest - 2) '\\') next (dest - 2)
    | none => escapeLoop (update buf (dest - 1) (buf next)) next (dest - 1)

def jsonEscape : (Nat → Char) × Nat × Int :=
  let escapedLen := jsonCalcEscapedLen buf len
  if escapedLen = len then (buf, len, 0)
  else if bufSize ≤ escapedLen then (buf, len, -eNoMem)
  else (escapeLoop (update buf escapedLen '\x00') len escapedLen, escapedLen, 0)

end

variable {buf : Nat → Char} {s : List Char}

theorem escape_concat (s : List Char) (c : Char) : escape (s ++ [c]) = escape s ++ escape [c] :=
  flatMap_append

theorem length_escape (s : List Char) :
    (escape s).length = s.length + s.countP fun c => (escapeAs c).isSome := by
  induction s with
  | nil => rfl
  | cons c s ih => cases hc : escapeAs c <;> simp_all [escape] <;> omega

theorem escape_eq_self (h : (escape s).length = s.length) : escape s = s := by
  have hnone : ∀ c ∈ s, escapeAs c = none := by simpa [length_escape] using h
  exact (flatMap_congr fun c hc => by rw [hnone c hc]).trans (flatMap_singleton' s)

theorem escapeLoop_at (h : At buf 0 s) :
    At (escapeLoop buf s.length (escape s).length) 0 (escape s) ∧
      ∀ i, (escape s).length ≤ i → escapeLoop buf s.length (escape s).length i = buf i := by
  induction s using reverseRecOn generalizing buf with
  | nil => exact ⟨rfl, fun _ _ => rfl⟩
  | append_singleton s c ih =>
    obtain ⟨hs, hc⟩ := at_append.mp h
    rw [at_cons, Nat.zero_add] at hc
    have hle := length_escape s
    -- the piece for `c` is written behind all that is still to be read
    obtain ⟨buf', hloop, hpiece, hrest⟩ : ∃ buf', escapeLoop buf (s ++ [c]).length
          (escape (s ++ [c])).length = escapeLoop buf' s.length (escape s).length ∧
        At buf' (escape s).length (escape [c]) ∧
        ∀ i, i < (escape s).length ∨ (escape (s ++ [c])).length ≤ i → buf' i = buf i := by
      rw [escape_concat, length_append, length_append]
      cases he : escapeAs c with
      | none =>
        have hone : escape [c] = [c] := by simp [escape, he]
        rw [hone]
        refine ⟨update buf (escape s).length c, ?_, ?_, fun i hi => ?_⟩
        · simp [escapeLoop, hc.1, he]
        · exact at_cons.mpr ⟨update_self .., rfl⟩
        · exact update_of_ne (by simp at hi; omega) ..
      | some e =>
        have htwo : escape [c] = ['\\', e] := by simp [escape, he]
        rw [htwo]
        refine ⟨update (update buf ((escape s).length + 1) e) (escape s).length '\\', ?_, ?_,
          fun i hi => ?_⟩
        · simp [escapeLoop, hc.1, he]
        · exact at_cons.mpr ⟨update_self .., at_cons.mpr ⟨by simp, rfl⟩⟩
        · simp at hi
          rw [update_of_ne (by omega), update_of_ne (by omega)]
    obtain ⟨hat, hkeep⟩ := ih (hs.congr fun i _ hi => hrest i (.inl (by omega)))
    rw [hloop]
    refine ⟨?_, fun i hi => ?_⟩
    · rw [escape_concat]
      refine at_append.mpr ⟨hat, ?_⟩
      rw [Nat.zero_add]
      exact hpiece.congr fun i hi _ => hkeep i hi
    · rw [hkeep i (by rw [escape_concat, length_append] at hi; omega), hrest i (.inr hi)]

theorem jsonCalcEscapedLen_eq (buf : Nat → Char) (len : Nat) :
    jsonCalcEscapedLen buf len = (escape (readRun buf 0 len)).length := by
  rw [length_escape, length_readRun, jsonCalcEscapedLen, readRun, countP_map]
  simp [comp_def]

/-- The text is refused where it would change and does not fit; else it is escaped, with nothing
written behind its end. -/
theorem jsonEscape_right (buf : Nat → Char) (len bufSize : Nat) :
    let s := readRun buf 0 len
    Feeds (fun _ appendBytes => jsonEscapeInternal appendBytes s) (escape s) ∧
    (escape s ≠ s ∧ bufSize ≤ (escape s).length →
      jsonEscape buf len bufSize = (buf, len, -eNoMem)) ∧
    (escape s = s ∨ (escape s).length < bufSize → ∃ buf',
      jsonEscape buf len bufSize = (buf', (escape s).length, 0) ∧ At buf' 0 (escape s) ∧
        ∀ i, (escape s).length < i → buf' i = buf i) := by
  dsimp only
  generalize hs : readRun buf 0 len = s
  have hlen : s.length = len := hs ▸ length_readRun
  have hat : At buf 0 s := by
    unfold At
    rw [hlen, hs]
  have hsame : (escape s).length = len ↔ escape s = s := by
    rw [← hlen]
    exact ⟨escape_eq_self, congrArg length⟩
  refine ⟨feeds_escape s, fun ⟨hne, hsize⟩ => ?_, fun hfits => ?_⟩ <;>
    simp only [jsonEscape, jsonCalcEscapedLen_eq, hs]
  · rw [if_neg (hsame.not.mpr hne), if_pos hsize]
  · split_ifs with heq hsize
    · refine ⟨buf, by rw [heq], ?_, fun _ _ => rfl⟩
      rwa [hsame.mp heq]
    · exact absurd hfits (by rw [← hsame]; omega)
    · have hat' : At (update buf (escape s).length '\x00') 0 s :=
        hat.congr fun i _ hi => update_of_ne (by have := length_escape s; omega) ..
      obtain ⟨htext, hrest⟩ := escapeLoop_at hat'
      rw [hlen] at htext hrest
      refine ⟨_, rfl, htext, fun i hi => ?_⟩
      rw [hrest i hi.le, update_of_ne hi.ne']

theorem jsonEscape_plain : (jsonEscape (fun _ => 'a') 3 2).2 = (3, 0) ∧
    2 ≤ (escape (readRun (fun _ => 'a') 0 3)).length := by decide

end Zephyr.Json
