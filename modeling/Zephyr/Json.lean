import Zephyr.RingBuffer

/-! The descriptor-driven JSON library of `lib/json`: a lexer over the text, and a parser that
stores the values at the offsets of a descriptor. -/

namespace Zephyr.Json

def eNoMem : Int := 12
def eInval : Int := 22
def eNoSpc : Int := 28
def eRange : Int := 34

inductive JsonTokens where
  | none | objectStart | objectEnd | listStart | listEnd | string | colon | comma | number
  | true | false | null | error | eof
deriving DecidableEq

structure Field where
  fieldName : List Char
  offset : Nat
  alignment : Nat

/-- `struct json_obj_descr` by its `type`; `JSON_TOK_TRUE` and `JSON_TOK_FALSE` are one. -/
inductive Descr where
  | number (f : Field)
  | string (f : Field)
  | boolean (f : Field)
  | object (f : Field) (subDescr : List Descr)
  | array (f : Field) (elementDescr : Descr) (nElements : Nat)

namespace Descr

def field : Descr → Field
  | number f | string f | boolean f | object f _ | array f _ _ => f

def offset (d : Descr) : Nat := d.field.offset

end Descr

/-- A scalar object in memory: `s32_t`, `size_t` and `bool` are words, and a `char *` is told apart
by what it points to. -/
inductive Cell (P : Type) where
  | word (w : BitVec 32)
  | ptr (p : P)
deriving DecidableEq

abbrev Mem (P : Type) := Int → Cell P

def Cell.toWord {P : Type} : Cell P → BitVec 32
  | word w => w
  | ptr _ => 0#32

def Cell.toText : Cell (List Char) → List Char
  | word _ => []
  | ptr s => s

structure Token where
  type : JsonTokens
  start : Nat
  stop : Nat

inductive LexState where
  | json | string | null | boolean | number

structure Lexer where
  state : Option LexState
  start : Nat
  pos : Nat
  stop : Nat
  token : Token

def isDigit (c : Char) : Bool := c.toNat - '0'.toNat < 10 && '0'.toNat ≤ c.toNat

def isSpace (c : Char) : Bool := c = ' ' || ('\t'.toNat ≤ c.toNat && c.toNat - '\t'.toNat < 5)

def isXDigit (c : Char) : Bool :=
  isDigit c || ('a'.toNat ≤ c.toNat && c.toNat - 'a'.toNat < 6) ||
    ('A'.toNat ≤ c.toNat && c.toNat - 'A'.toNat < 6)

section Lexer

variable (chars : Nat → Char)

variable (l : Lexer)

def lexerConsume (emptyToken : JsonTokens) : Option Token × Lexer :=
  if l.token.type = emptyToken then (none, l)
  else (some l.token, { l with token := { l.token with type := emptyToken } })

def emit (token : JsonTokens) : Lexer :=
  { l with token := ⟨token, l.start, l.pos⟩, start := l.pos }

def next : Char × Lexer :=
  if l.stop ≤ l.pos then ('\x00', { l with pos := l.stop + 1 })
  else (chars l.pos, { l with pos := l.pos + 1 })

def ignore : Lexer := { l with start := l.pos }

def backup : Lexer := { l with pos := l.pos - 1 }

def peek : Char := (next chars l).1

def lexerError : Lexer := { emit l .error with state := none }

def enter (state : LexState) : Lexer := { l with state := some state }

def hexRun : Nat → Lexer → Option Lexer
  | 0, l => some l
  | n + 1, l => if isXDigit (next chars l).1 then hexRun n (next chars l).2 else none

inductive Round where
  | again (l : Lexer)
  | done (l : Lexer)

def rounds (body : Lexer → Round) : Nat → Lexer → Lexer
  | 0, l => lexerError l
  | n + 1, l =>
    match body l with
    | .again l => rounds body n l
    | .done l => l

def stringRound : Round :=
  let chr := (next chars l).1
  let l := (next chars l).2
  if chr = '\x00' then .done (lexerError l)
  else if chr = '\\' then
    let escaped := (next chars l).1
    let l := (next chars l).2
    if escaped ∈ ['"', '\\', '/', 'b', 'f', 'n', 'r', 't'] then .again l
    else if escaped = 'u' then
      match hexRun chars 4 l with
      | some l => .again l
      | none => .done (lexerError l)
    else .done (lexerError l)
  else if chr = '"' then .done (enter (ignore (next chars (emit (backup l) .string)).2) .json)
  else .again l

def lexerString : Lexer :=
  rounds (stringRound chars) (l.stop + 1 - l.pos) (ignore l)

def acceptRun : List Char → Lexer → Option Lexer
  | [], l => some l
  | c :: run, l => if (next chars l).1 ≠ c then none else acceptRun run (next chars l).2

def lexerWord (run : List Char) (token : JsonTokens) (l : Lexer) : Lexer :=
  match acceptRun chars run l with
  | some l => enter (emit l token) .json
  | none => lexerError l

def lexerBoolean : Lexer :=
  let chr := (next chars (backup l)).1
  let l := (next chars (backup l)).2
  if chr = 't' then lexerWord chars ['r', 'u', 'e'] .true l
  else if chr = 'f' then lexerWord chars ['a', 'l', 's', 'e'] .false l
  else lexerError l

def lexerNull : Lexer := lexerWord chars ['u', 'l', 'l'] .null l

def numberRound : Round :=
  let chr := (next chars l).1
  let l := (next chars l).2
  if isDigit chr || chr = '.' then .again l else .done (enter (emit (backup l) .number) .json)

def lexerNumber : Lexer := rounds (numberRound chars) (l.stop + 1 - l.pos) l

def punctuation : Char → Option JsonTokens
  | '}' => some .objectEnd
  | '{' => some .objectStart
  | '[' => some .listStart
  | ']' => some .listEnd
  | ',' => some .comma
  | ':' => some .colon
  | _ => none

def jsonRound : Round :=
  let chr := (next chars l).1
  let l := (next chars l).2
  if chr = '\x00' then .done { emit l .eof with state := none }
  else match punctuation chr with
    | some token => .done (enter (emit l token) .json)
    | none =>
      if chr = '"' then .done (enter l .string)
      else if chr = 'n' then .done (enter l .null)
      else if chr = 't' ∨ chr = 'f' then .done (enter l .boolean)
      else if chr = '-' ∧ isDigit (peek chars l) then .done (enter l .number)
      else if isSpace chr then .again (ignore l)
      else if isDigit chr then .done (enter l .number)
      else .done (lexerError l)

def lexerJson : Lexer := rounds (jsonRound chars) (l.stop + 1 - l.pos) l

def runState : LexState → Lexer
  | .json => lexerJson chars l
  | .string => lexerString chars l
  | .null => lexerNull chars l
  | .boolean => lexerBoolean chars l
  | .number => lexerNumber chars l

def nextLoop : Nat → Lexer → Option Token × Lexer
  | 0, l => (none, l)
  | fuel + 1, l =>
    match l.state with
    | none => lexerConsume l .eof
    | some state =>
      match lexerConsume l .none with
      | (some token, l) => (some token, l)
      | (none, l) => nextLoop fuel (runState chars l state)

def lexerNext : Option Token × Lexer := nextLoop chars 3 l

def lexerInit (data len : Nat) : Lexer :=
  ⟨some .json, data, data, data + len, ⟨.none, data, data⟩⟩

def elementToken : JsonTokens → Bool
  | .objectStart | .listStart | .string | .number | .true | .false => true
  | _ => false

structure KeyValue where
  key : Nat
  keyLen : Nat
  value : Token

def objValue (key : Token) (l : Lexer) : Option KeyValue × Lexer :=
  match lexerNext chars l with
  | (none, l) => (none, l)
  | (some colon, l) =>
    if colon.type ≠ .colon then (none, l)
    else match lexerNext chars l with
      | (none, l) => (none, l)
      | (some value, l) =>
        (if elementToken value.type then some ⟨key.start, key.stop - key.start, value⟩ else none, l)

def objNext : Option KeyValue × Lexer :=
  match lexerNext chars l with
  | (none, l) => (none, l)
  | (some token, l) =>
    match token.type with
    | .objectEnd => (some ⟨0, 0, token⟩, l)
    | .comma =>
      match lexerNext chars l with
      | (none, l) => (none, l)
      | (some key, l) => if key.type ≠ .string then (none, l) else objValue chars key l
    | .string => objValue chars token l
    | _ => (none, l)

def arrNext : Option Token × Lexer :=
  match lexerNext chars l with
  | (none, l) => (none, l)
  | (some value, l) =>
    match value.type with
    | .listEnd => (some value, l)
    | .comma =>
      match lexerNext chars l with
      | (none, l) => (none, l)
      | (some value, l) => (if elementToken value.type then some value else none, l)
    | _ => (if elementToken value.type then some value else none, l)

end Lexer

/-- `strtol` of base 10: the number, the characters consumed and `errno`. -/
structure Strtol where
  num : BitVec 32
  consumed : Nat
  errno : Int

/-- The loop of `strtol`; `any` is `none` once the number is too big. -/
def strtolLoop (cutoff cutlim : Nat) : List Char → Option Nat → Nat → Option Nat × Nat
  | [], acc, consumed => (acc, consumed)
  | c :: s, acc, consumed =>
    if isDigit c then
      let digit := c.toNat - '0'.toNat
      strtolLoop cutoff cutlim s (acc.bind fun acc =>
          if acc > cutoff ∨ (acc = cutoff ∧ digit > cutlim) then none else some (acc * 10 + digit))
        (consumed + 1)
    else (acc, consumed)

def strtolDigits (neg : Bool) (skipped : Nat) (s : List Char) : Strtol :=
  let limit := if neg then 2 ^ 31 else 2 ^ 31 - 1
  match strtolLoop (limit / 10) (limit % 10) s (some 0) 0 with
  | (none, n) => ⟨if neg then BitVec.ofNat 32 (2 ^ 31) else BitVec.ofNat 32 (2 ^ 31 - 1),
      skipped + n, eRange⟩
  | (some acc, n) => ⟨if neg then -BitVec.ofNat 32 acc else BitVec.ofNat 32 acc,
      if n = 0 then 0 else skipped + n, 0⟩

def strtol (s : List Char) : Strtol :=
  let spaces := (s.takeWhile isSpace).length
  match s.drop spaces with
  | '-' :: s => strtolDigits true (spaces + 1) s
  | '+' :: s => strtolDigits false (spaces + 1) s
  | s => strtolDigits false spaces s

/-- The parser: its lexer, the payload that it writes terminators to, and the memory of `val`. -/
structure Parser where
  lexer : Lexer
  chars : Nat → Char
  mem : Mem Nat

def Parser.store (p : Parser) (field : Int) (c : Cell Nat) : Parser :=
  { p with mem := Function.update p.mem field c }

def Parser.withLexer (p : Parser) (l : Lexer) : Parser := { p with lexer := l }

def decodeNum (value : Token) (field : Int) (p : Parser) : Int × Parser :=
  let r := strtol (readRun p.chars value.start (value.stop - value.start))
  let p := p.store field (.word r.num)
  if r.errno ≠ 0 then (-r.errno, p)
  else if value.start + r.consumed ≠ value.stop then (-eInval, p)
  else (0, p)

def equivalentTypes (type1 type2 : JsonTokens) : Bool :=
  if type1 = .true ∨ type1 = .false then type2 = .true ∨ type2 = .false else type1 = type2

def roundUp (x align : Nat) : Nat :=
  ((BitVec.ofNat 32 x + (BitVec.ofNat 32 align - 1#32)) &&& ~~~(BitVec.ofNat 32 align - 1#32)).toNat

mutual

def getElemSize : Descr → Nat
  | .number _ => 4
  | .string _ => 4
  | .boolean _ => 1
  | .array _ elementDescr nElements => nElements * getElemSize elementDescr
  | .object f subDescr => getSubSize f.alignment subDescr

def getSubSize (alignment : Nat) : List Descr → Nat
  | [] => 0
  | d :: sub => roundUp (getElemSize d) alignment + getSubSize alignment sub

end

/-- `decode_value` of one descriptor: the token, the addresses of the field and of the struct. -/
abbrev Decoder := Token → Int → Int → Parser → Int × Parser

def arrLoop (decode : Decoder) (elemSize : Nat) (lastElem elements val : Int) :
    Nat → Int → Parser → Int × Parser
  | 0, _, p => (-eInval, p)
  | fuel + 1, field, p =>
    match arrNext p.chars p.lexer with
    | (none, l) => (-eInval, p.withLexer l)
    | (some value, l) =>
      if value.type = .listEnd then (0, p.withLexer l)
      else if field = lastElem then (-eNoSpc, p.withLexer l)
      else
        let (ret, p) := decode value field val (p.withLexer l)
        if ret < 0 then (-eInval, p)
        else arrLoop decode elemSize lastElem elements val fuel (field + elemSize)
          (p.store elements (.word ((p.mem elements).toWord + 1#32)))

def arrParse (decode : Decoder) (elemDescr : Descr) (maxElements : Nat) (field val : Int)
    (p : Parser) : Int × Parser :=
  let elemSize := getElemSize elemDescr
  let elements := val + elemDescr.offset
  arrLoop decode elemSize (field + elemSize * maxElements) elements val
    (p.lexer.stop + 1 - p.lexer.pos) field (p.store elements (.word 0#32))

def findField (chars : Nat → Char) (decoded : BitVec 32) (kv : KeyValue) :
    Nat → List (Field × Decoder) → Option (Nat × Field × Decoder)
  | _, [] => none
  | i, (f, decode) :: rest =>
    if decoded &&& (1#32 <<< i) ≠ 0#32 then findField chars decoded kv (i + 1) rest
    else if kv.keyLen ≠ f.fieldName.length then findField chars decoded kv (i + 1) rest
    else if readRun chars kv.key f.fieldName.length ≠ f.fieldName then
      findField chars decoded kv (i + 1) rest
    else some (i, f, decode)

def objLoop (descr : List (Field × Decoder)) (val : Int) : Nat → BitVec 32 → Parser → Int × Parser
  | 0, _, p => (-eInval, p)
  | fuel + 1, decoded, p =>
    match objNext p.chars p.lexer with
    | (none, l) => (-eInval, p.withLexer l)
    | (some kv, l) =>
      if kv.value.type = .objectEnd then (decoded.toInt, p.withLexer l)
      else match findField p.chars decoded kv 0 descr with
        | none => objLoop descr val fuel decoded (p.withLexer l)
        | some (i, f, decode) =>
          let (ret, p) := decode kv.value (val + f.offset) val (p.withLexer l)
          if ret < 0 then (ret, p)
          else objLoop descr val fuel (decoded ||| (1#32 <<< i)) p

def objParse (descr : List (Field × Decoder)) (val : Int) (p : Parser) : Int × Parser :=
  objLoop descr val (p.lexer.stop + 1 - p.lexer.pos) 0#32 p

mutual

def decodeValue : Descr → Decoder
  | .object _ subDescr => fun value field _ p =>
    if !equivalentTypes value.type .objectStart then (-eInval, p)
    else objParse (decoders subDescr) field p
  | .array _ elementDescr nElements => fun value field val p =>
    if !equivalentTypes value.type .listStart then (-eInval, p)
    else arrParse (decodeValue elementDescr) elementDescr nElements field val p
  | .boolean _ => fun value field _ p =>
    if !equivalentTypes value.type .true then (-eInval, p)
    else (0, p.store field (.word (if value.type = .true then 1#32 else 0#32)))
  | .number _ => fun value field _ p =>
    if !equivalentTypes value.type .number then (-eInval, p) else decodeNum value field p
  | .string _ => fun value field _ p =>
    if !equivalentTypes value.type .string then (-eInval, p)
    else (0, { p with chars := Function.update p.chars value.stop '\x00' }.store field
      (.ptr value.start))

def decoders : List Descr → List (Field × Decoder)
  | [] => []
  | d :: sub => (d.field, decodeValue d) :: decoders sub

end

def jsonObjParse (payload : Nat → Char) (data len : Nat) (descr : List Descr) (mem : Mem Nat)
    (val : Int) : Int × Parser :=
  match lexerNext payload (lexerInit data len) with
  | (none, l) => (-eInval, ⟨l, payload, mem⟩)
  | (some token, l) =>
    if token.type ≠ .objectStart then (-eInval, ⟨l, payload, mem⟩)
    else objParse (decoders descr) val ⟨l, payload, mem⟩

end Zephyr.Json
