import Zephyr.JsonText

/-! The lexer on the text of the encoder: `strtol` reads back what `snprintk` writes, and each call
of `lexer_next` takes one token and stands behind it. -/

namespace Zephyr.Json

open List

def decValue (s : List Char) : Nat := s.foldl (fun acc c => acc * 10 + (c.toNat - '0'.toNat)) 0

theorem foldl_decimal (s : List Char) (acc : Nat) :
    s.foldl (fun acc c => acc * 10 + (c.toNat - '0'.toNat)) acc =
      acc * 10 ^ s.length + decValue s := by
  induction s generalizing acc with
  | nil => simp [decValue]
  | cons c s ih =>
    simp only [decValue, foldl_cons, length_cons]
    rw [ih, ih (0 * 10 + _)]
    ring

theorem decValue_cons (c : Char) (s : List Char) :
    decValue (c :: s) = (c.toNat - '0'.toNat) * 10 ^ s.length + decValue s := by
  rw [decValue, foldl_cons, foldl_decimal, Nat.zero_add]

theorem digitChar_spec {n : Nat} (h : n < 10) :
    isDigit (digitChar n) = true ∧ (digitChar n).toNat - '0'.toNat = n := by
  revert n
  decide

theorem printkDecLoop_spec (n remainder : Nat) (found : Bool) (hlt : remainder < 10 ^ (n + 1)) :
    let s := printkDecLoop (n + 1) (10 ^ n - 1) remainder found
    (∀ c ∈ s, isDigit c = true) ∧ decValue s = remainder ∧ 0 < s.length ∧ s.length ≤ n + 1 ∧
      (found = true → s.length = n + 1) := by
  induction n generalizing remainder found with
  | zero =>
    have hd := digitChar_spec hlt
    refine ⟨?_, ?_, by simp [printkDecLoop], by simp [printkDecLoop], by simp [printkDecLoop]⟩
    · simp [printkDecLoop, hd.1]
    · simpa [printkDecLoop, decValue] using hd.2
  | succ n ih =>
    have hmod : remainder % 10 ^ (n + 1) < 10 ^ (n + 1) := Nat.mod_lt _ (by omega)
    have hdig : remainder / 10 ^ (n + 1) < 10 := by
      rw [Nat.div_lt_iff_lt_mul (by omega), Nat.mul_comm]
      exact hlt
    have hsucc : 10 ^ (n + 1) - 1 + 1 = 10 ^ (n + 1) := by omega
    have hdiv : (10 ^ (n + 1) - 1) / 10 = 10 ^ n - 1 := by omega
    rw [printkDecLoop, if_neg (by omega), hsucc, hdiv]
    dsimp only
    by_cases hf : (found || decide (10 ^ (n + 1) - 1 < remainder)) = true
    · obtain ⟨hdigits, hval, hnonempty, hle, hlen⟩ := ih _ true hmod
      obtain ⟨hisd, hd⟩ := digitChar_spec hdig
      rw [hf, if_pos rfl, singleton_append]
      refine ⟨forall_mem_cons.mpr ⟨hisd, hdigits⟩, ?_, by simp, by simpa using hle,
        fun _ => by simpa using hlen rfl⟩
      rw [decValue_cons, hd, hval, hlen rfl, Nat.mul_comm, Nat.div_add_mod]
    · rw [Bool.not_eq_true] at hf
      obtain ⟨hdigits, hval, hnonempty, hle, hlen⟩ := ih _ false hmod
      rw [hf, if_neg Bool.false_ne_true, nil_append]
      simp only [Bool.or_eq_false_iff, decide_eq_false_iff_not] at hf
      refine ⟨hdigits, ?_, hnonempty, by omega, fun ht => ?_⟩
      · rw [hval, Nat.mod_eq_of_lt (by omega)]
      · rw [ht] at hf
        exact absurd hf.1 (by decide)

theorem printkDecUlong_spec {num : Nat} (hlt : num < 10 ^ 10) :
    (∀ c ∈ printkDecUlong num, isDigit c = true) ∧ decValue (printkDecUlong num) = num ∧
      0 < (printkDecUlong num).length := by
  obtain ⟨hdigits, hval, hpos, -, -⟩ := printkDecLoop_spec 9 num false hlt
  exact ⟨hdigits, hval, hpos⟩

theorem strtolLoop_digits {limit : Nat} (s : List Char) (acc consumed : Nat)
    (hs : ∀ c ∈ s, isDigit c = true) (hle : acc * 10 ^ s.length + decValue s ≤ limit) :
    strtolLoop (limit / 10) (limit % 10) s (some acc) consumed =
      (some (acc * 10 ^ s.length + decValue s), consumed + s.length) := by
  induction s generalizing acc consumed with
  | nil => simp [strtolLoop, decValue]
  | cons c s ih =>
    have hc := hs c mem_cons_self
    rw [decValue_cons, length_cons] at hle ⊢
    set d := c.toNat - '0'.toNat with hd
    have hsum : acc * 10 ^ (s.length + 1) + (d * 10 ^ s.length + decValue s) =
        (acc * 10 + d) * 10 ^ s.length + decValue s := by
      ring
    rw [hsum] at hle ⊢
    have hacc : acc * 10 + d ≤ limit := by
      calc acc * 10 + d ≤ (acc * 10 + d) * 10 ^ s.length :=
            Nat.le_mul_of_pos_right _ (Nat.pow_pos (by decide))
        _ ≤ limit := by omega
    have hno : ¬ (acc > limit / 10 ∨ acc = limit / 10 ∧ d > limit % 10) := by omega
    rw [strtolLoop, if_pos hc]
    simp only [← hd, Option.bind_some, if_neg hno]
    rw [ih _ _ (fun c hc => hs c (mem_cons_of_mem _ hc)) hle]
    congr 1
    omega

theorem strtolDigits_eq {s : List Char} (neg : Bool) (skipped : Nat)
    (hs : ∀ c ∈ s, isDigit c = true) (hpos : 0 < s.length)
    (hle : decValue s ≤ if neg then 2 ^ 31 else 2 ^ 31 - 1) :
    strtolDigits neg skipped s =
      ⟨if neg then -BitVec.ofNat 32 (decValue s) else BitVec.ofNat 32 (decValue s),
        skipped + s.length, 0⟩ := by
  have hacc : 0 * 10 ^ s.length + decValue s ≤ if neg then 2 ^ 31 else 2 ^ 31 - 1 := by
    rwa [Nat.zero_mul, Nat.zero_add]
  have hloop := strtolLoop_digits s 0 0 hs hacc
  rw [Nat.zero_mul, Nat.zero_add, Nat.zero_add] at hloop
  unfold strtolDigits
  dsimp only
  rw [hloop]
  have hne : s.length ≠ 0 := by omega
  simp only [if_neg hne]

theorem digit_mem {c : Char} (h : isDigit c = true) :
    c ∈ ['0', '1', '2', '3', '4', '5', '6', '7', '8', '9'] := by
  have hall : ∀ n < 10, Char.ofNat (n + 48) ∈ ['0', '1', '2', '3', '4', '5', '6', '7', '8', '9'] :=
    by decide
  simp only [isDigit, Bool.and_eq_true, decide_eq_true_iff] at h
  have hge : 48 ≤ c.toNat := h.2
  have hc : c = Char.ofNat (c.toNat - 48 + 48) := by
    rw [Nat.sub_add_cancel hge, Char.ofNat_toNat]
  rw [hc]
  exact hall _ h.1

theorem digit_ne {c : Char} (h : isDigit c = true) : isSpace c = false ∧ c ≠ '-' ∧ c ≠ '+' := by
  have hall : ['0', '1', '2', '3', '4', '5', '6', '7', '8', '9'].all
      (fun c => !isSpace c && (c != '-' && c != '+')) = true := by decide
  simpa using all_eq_true.mp hall c (digit_mem h)

theorem strtol_digits {s : List Char} (hs : ∀ c ∈ s, isDigit c = true) (hpos : 0 < s.length) :
    strtol s = strtolDigits false 0 s := by
  obtain ⟨c, s, rfl⟩ := exists_cons_of_length_pos hpos
  obtain ⟨hspace, hminus, hplus⟩ := digit_ne (hs c mem_cons_self)
  unfold strtol
  rw [takeWhile_cons_of_neg (by rw [hspace]; decide)]
  dsimp only [length_nil]
  split
  · exact absurd (cons.inj ‹_›).1 hminus
  · exact absurd (cons.inj ‹_›).1 hplus
  · rfl

theorem strtol_printkDec (num : BitVec 32) :
    strtol (printkDec num) = ⟨num, (printkDec num).length, 0⟩ := by
  have hnum := num.isLt
  unfold printkDec
  split_ifs with hneg
  · obtain ⟨hdigits, hval, hpos⟩ := printkDecUlong_spec
      (Nat.lt_trans (-num).isLt (by decide) : (-num).toNat < 10 ^ 10)
    have hlarge : 2 ^ 31 ≤ num.toNat := by
      rw [BitVec.toInt_eq_toNat_cond] at hneg
      split_ifs at hneg <;> omega
    have hsmall : (-num).toNat ≤ 2 ^ 31 := by
      rw [BitVec.toNat_neg]
      omega
    have hsign : strtol ('-' :: printkDecUlong (-num).toNat) =
      strtolDigits true 1 (printkDecUlong (-num).toNat) := rfl
    rw [hsign, strtolDigits_eq true 1 hdigits hpos (by rwa [hval]), hval, if_pos rfl,
      BitVec.ofNat_toNat, BitVec.setWidth_eq, BitVec.neg_neg, Nat.add_comm, length_cons]
  · obtain ⟨hdigits, hval, hpos⟩ := printkDecUlong_spec
      (Nat.lt_trans hnum (by decide) : num.toNat < 10 ^ 10)
    have hsmall : num.toNat ≤ 2 ^ 31 - 1 := by
      rw [BitVec.toInt_eq_toNat_cond] at hneg
      split_ifs at hneg <;> omega
    rw [strtol_digits hdigits hpos, strtolDigits_eq false 0 hdigits hpos (by rwa [hval]), hval]
    simp

theorem printkDec_shape (num : BitVec 32) : ∃ s, (∀ c ∈ s, isDigit c = true) ∧ s ≠ [] ∧
    (printkDec num = s ∨ printkDec num = '-' :: s) := by
  have hlt : ∀ x : BitVec 32, x.toNat < 10 ^ 10 := fun x => Nat.lt_trans x.isLt (by decide)
  unfold printkDec
  split_ifs
  · obtain ⟨hdigits, -, hpos⟩ := printkDecUlong_spec (hlt (-num))
    exact ⟨_, hdigits, ne_nil_of_length_pos hpos, .inr rfl⟩
  · obtain ⟨hdigits, -, hpos⟩ := printkDecUlong_spec (hlt num)
    exact ⟨_, hdigits, ne_nil_of_length_pos hpos, .inl rfl⟩

variable {chars : Nat → Char} {l : Lexer} {pos stop : Nat} {c : Char} {s t : List Char}
  {state : LexState}

def At (chars : Nat → Char) (pos : Nat) (t : List Char) : Prop := readRun chars pos t.length = t

theorem readRun_succ {A : Type} (buf : Nat → A) (pos n : Nat) :
    readRun buf pos (n + 1) = buf pos :: readRun buf (pos + 1) n := by
  simp [readRun, range_succ_eq_map, Nat.add_assoc, Nat.add_comm 1]

theorem at_cons : At chars pos (c :: t) ↔ chars pos = c ∧ At chars (pos + 1) t := by
  unfold At
  rw [length_cons, readRun_succ, cons.injEq]

theorem at_append : At chars pos (s ++ t) ↔ At chars pos s ∧ At chars (pos + s.length) t := by
  induction s generalizing pos with
  | nil => simp [At, readRun]
  | cons c s ih =>
    rw [cons_append, at_cons, at_cons, ih, length_cons, Nat.add_assoc, Nat.add_comm 1, and_assoc]

structure Ready (l : Lexer) (pos stop : Nat) : Prop where
  state : l.state = some .json
  token : l.token.type = .none
  start : l.start = pos
  pos : l.pos = pos
  stop : l.stop = stop

@[simps] def advance (l : Lexer) : Lexer := { l with pos := l.pos + 1 }

theorem next_at (hlt : l.pos < l.stop) : next chars l = (chars l.pos, advance l) :=
  if_neg (by omega)

structure Emitted (l : Lexer) (token : Token) (pos stop : Nat) : Prop where
  state : l.state = some .json
  token : l.token = token
  start : l.start = pos
  pos : l.pos = pos
  stop : l.stop = stop

theorem Emitted.next {token : Token} (h : Emitted l token pos stop) (ht : token.type ≠ .none)
    (n : Nat) : ∃ l', nextLoop chars (n + 1) l = (some token, l') ∧ Ready l' pos stop := by
  have hconsume : lexerConsume l .none =
      (some token, { l with token := { token with type := .none } }) := by
    unfold lexerConsume
    rw [h.token, if_neg ht]
  refine ⟨{ l with token := { token with type := .none } }, ?_, { h with token := rfl }⟩
  simp only [nextLoop, h.state, hconsume]

theorem nextLoop_state (n : Nat) (hs : l.state = some state) (ht : l.token.type = .none) :
    nextLoop chars (n + 1) l = nextLoop chars n (runState chars l state) := by
  rw [nextLoop, hs]
  dsimp only
  rw [lexerConsume, if_pos ht]

variable {l' : Lexer} {body : Lexer → Round} {token : JsonTokens}

theorem rounds_done {n : Nat} (hn : 0 < n) (h : body l = .done l') : rounds body n l = l' := by
  obtain ⟨n, rfl⟩ := Nat.exists_eq_succ_of_ne_zero (Nat.pos_iff_ne_zero.mp hn)
  rw [rounds, h]

theorem rounds_again {n : Nat} (hn : 0 < n)
    (h : body l = .again l') : rounds body n l = rounds body (n - 1) l' := by
  obtain ⟨n, rfl⟩ := Nat.exists_eq_succ_of_ne_zero (Nat.pos_iff_ne_zero.mp hn)
  rw [rounds, h]
  rfl

theorem lexerJson_done (h : Ready l pos stop) (hlt : pos < stop)
    (hd : jsonRound chars l = .done l') : runState chars l .json = l' := by
  have := h.pos
  have := h.stop
  exact rounds_done (by omega) hd

theorem Ready.next_eq (h : Ready l pos stop) (hlt : pos < stop) :
    next chars l = (chars pos, advance l) := by
  rw [next_at (by rw [h.pos, h.stop]; exact hlt), h.pos]

theorem lexerNext_punctuation (h : Ready l pos stop) (hlt : pos < stop)
    (hc : chars pos = c) (hp : punctuation c = some token) (ht : token ≠ .none)
    (hnul : c ≠ '\x00') :
    ∃ l', lexerNext chars l = (some ⟨token, pos, pos + 1⟩, l') ∧ Ready l' (pos + 1) stop := by
  have hround : jsonRound chars l = .done (enter (emit (advance l) token) .json) := by
    simp only [jsonRound, h.next_eq hlt, hc, hnul, hp, if_false]
  have hrun : Emitted (runState chars l .json) ⟨token, pos, pos + 1⟩ (pos + 1) stop := by
    rw [lexerJson_done h hlt hround]
    refine ⟨rfl, ?_, ?_, ?_, h.stop⟩ <;> simp [enter, emit, h.start, h.pos]
  unfold lexerNext
  rw [nextLoop_state 2 h.state h.token]
  exact hrun.next ht 1

theorem escapeAs_cases (c : Char) :
    (∃ e, escapeAs c = some e ∧ e ∈ ['"', '\\', '/', 'b', 'f', 'n', 'r', 't']) ∨
      (escapeAs c = none ∧ c ≠ '\\' ∧ c ≠ '"') := by
  unfold escapeAs
  split <;> simp_all

theorem stringRound_quote (hlt : l.pos < l.stop) (hc : chars l.pos = '"') :
    stringRound chars l = .done (enter (ignore (advance (emit l .string))) .json) := by
  have hback : backup (advance l) = l := rfl
  have hnext : next chars (emit l .string) = (chars l.pos, advance (emit l .string)) := next_at hlt
  simp [stringRound, next_at hlt, hc, hback, hnext]

theorem stringRound_plain (hlt : l.pos < l.stop) (hnul : chars l.pos ≠ '\x00')
    (hback : chars l.pos ≠ '\\') (hquote : chars l.pos ≠ '"') :
    stringRound chars l = .again (advance l) := by
  simp only [stringRound, next_at hlt, hnul, hback, hquote, if_false]

theorem stringRound_escaped (hlt : l.pos + 1 < l.stop) (hc : chars l.pos = '\\')
    (he : chars (l.pos + 1) ∈ ['"', '\\', '/', 'b', 'f', 'n', 'r', 't']) :
    stringRound chars l = .again (advance (advance l)) := by
  have hnext : next chars (advance l) = (chars (l.pos + 1), advance (advance l)) := next_at hlt
  have hback : ¬ '\\' = '\x00' := by decide
  simp only [stringRound, next_at (Nat.lt_of_succ_lt hlt), hc, hnext, he, hback, if_false, if_true]

theorem rounds_string {fuel : Nat} (s : List Char) (hs : '\x00' ∉ s)
    (hat : At chars l.pos (escape s ++ ['"'])) (hlt : l.pos + (escape s).length < l.stop)
    (hfuel : (escape s).length < fuel) :
    Emitted (rounds (stringRound chars) fuel l) ⟨.string, l.start, l.pos + (escape s).length⟩
      (l.pos + (escape s).length + 1) l.stop := by
  induction s generalizing l fuel with
  | nil =>
    rw [rounds_done (by omega) (stringRound_quote hlt (at_cons.mp hat).1)]
    exact ⟨rfl, rfl, rfl, rfl, rfl⟩
  | cons c s ih =>
    have hs' : '\x00' ∉ s := fun h => hs (mem_cons_of_mem c h)
    obtain ⟨e, he, hmem⟩ | ⟨hnone, hback, hquote⟩ := escapeAs_cases c
    · have hesc : escape (c :: s) = '\\' :: e :: escape s := by simp [escape, he]
      rw [hesc] at hat hlt hfuel ⊢
      simp only [cons_append, at_cons, length_cons] at hat hlt hfuel ⊢
      obtain ⟨hc, rfl, hrest⟩ := hat
      rw [rounds_again (by omega) (stringRound_escaped (by omega) hc hmem)]
      have hlen : l.pos + ((escape s).length + 1 + 1) = l.pos + 1 + 1 + (escape s).length := by
        omega
      rw [hlen]
      exact ih hs' hrest (by dsimp only [advance]; omega) (by omega)
    · have hesc : escape (c :: s) = c :: escape s := by simp [escape, hnone]
      rw [hesc] at hat hlt hfuel ⊢
      simp only [cons_append, at_cons, length_cons] at hat hlt hfuel ⊢
      obtain ⟨rfl, hrest⟩ := hat
      rw [rounds_again (by omega) (stringRound_plain (by omega)
        (fun h => hs (h ▸ mem_cons_self)) hback hquote)]
      have hlen : l.pos + ((escape s).length + 1) = l.pos + 1 + (escape s).length := by omega
      rw [hlen]
      exact ih hs' hrest (by dsimp only [advance]; omega) (by omega)

theorem lexerNext_enter {token : Token} {pos' : Nat} (h : Ready l pos stop)
    (hlt : pos < stop) (hround : jsonRound chars l = .done (enter (advance l) state))
    (hrun : Emitted (runState chars (enter (advance l) state) state) token pos' stop)
    (ht : token.type ≠ .none) :
    ∃ l', lexerNext chars l = (some token, l') ∧ Ready l' pos' stop := by
  have hstate : (enter (advance l) state).state = some state := rfl
  unfold lexerNext
  rw [nextLoop_state 2 h.state h.token, lexerJson_done h hlt hround,
    nextLoop_state 1 hstate h.token]
  exact hrun.next ht 0

theorem lexerNext_string (h : Ready l pos stop) (hs : '\x00' ∉ s) (hat : At chars pos (quoted s))
    (hlt : pos + (quoted s).length ≤ stop) :
    ∃ l', lexerNext chars l = (some ⟨.string, pos + 1, pos + 1 + (escape s).length⟩, l') ∧
      Ready l' (pos + (quoted s).length) stop := by
  obtain ⟨hc, hat⟩ := at_cons.mp hat
  have hlen : (quoted s).length = (escape s).length + 2 := by simp [quoted]
  have hpos := h.pos
  have hstop := h.stop
  have hround : jsonRound chars l = .done (enter (advance l) .string) := by
    simp [jsonRound, h.next_eq (by omega), hc, punctuation]
  have hrun : Emitted (lexerString chars (enter (advance l) .string))
      ⟨.string, l.pos + 1, l.pos + 1 + (escape s).length⟩ (l.pos + 1 + (escape s).length + 1)
      l.stop :=
    rounds_string s hs (by rwa [← h.pos] at hat) (by dsimp only [ignore, enter, advance]; omega)
      (by dsimp only [enter, advance]; omega)
  rw [hpos, hstop] at hrun
  have hend : pos + (quoted s).length = pos + 1 + (escape s).length + 1 := by omega
  rw [hend]
  exact lexerNext_enter h (by omega) hround hrun JsonTokens.noConfusion

theorem rounds_number {fuel : Nat} (s : List Char) (hs : ∀ d ∈ s, isDigit d = true)
    (hat : At chars l.pos (s ++ [c])) (hc : isDigit c = false ∧ c ≠ '.')
    (hlt : l.pos + s.length < l.stop) (hfuel : s.length < fuel) :
    Emitted (rounds (numberRound chars) fuel l) ⟨.number, l.start, l.pos + s.length⟩
      (l.pos + s.length) l.stop := by
  induction s generalizing l fuel with
  | nil =>
    have hround : numberRound chars l = .done (enter (emit l .number) .json) := by
      have hback : backup (advance l) = l := rfl
      simp only [nil_append, at_cons] at hat
      simp [numberRound, next_at hlt, hat.1, hc.1, hc.2, hback]
    rw [rounds_done (by omega) hround]
    exact ⟨rfl, rfl, rfl, rfl, rfl⟩
  | cons d s ih =>
    simp only [cons_append, at_cons, length_cons] at hat hlt hfuel ⊢
    have hround : numberRound chars l = .again (advance l) := by
      simp [numberRound, next_at (show l.pos < l.stop by omega), hat.1, hs d mem_cons_self]
    have hlen : l.pos + (s.length + 1) = l.pos + 1 + s.length := by omega
    rw [rounds_again (by omega) hround, hlen]
    exact ih (fun d hd => hs d (mem_cons_of_mem _ hd)) hat.2
      (by dsimp only [advance]; omega) (by omega)

theorem jsonRound_digit (h : Ready l pos stop) (hlt : pos < stop)
    (hc : isDigit (chars pos) = true) : jsonRound chars l = .done (enter (advance l) .number) := by
  have hall : ['0', '1', '2', '3', '4', '5', '6', '7', '8', '9'].all (fun c =>
      (punctuation c).isNone && (c != '\x00' && (c != '"' && (c != 'n' &&
        (c != 't' && c != 'f'))))) = true := by decide
  have hne := all_eq_true.mp hall _ (digit_mem hc)
  simp only [Bool.and_eq_true, Option.isNone_iff_eq_none, bne_iff_ne] at hne
  obtain ⟨hp, hnul, hquote, hn, ht, hf⟩ := hne
  obtain ⟨hspace, hminus, -⟩ := digit_ne hc
  simp [jsonRound, h.next_eq hlt, hp, hnul, hquote, hn, ht, hf, hspace, hc]

theorem jsonRound_minus (h : Ready l pos stop) (hlt : pos + 1 < stop) (hc : chars pos = '-')
    (hd : isDigit (chars (pos + 1)) = true) :
    jsonRound chars l = .done (enter (advance l) .number) := by
  have hpeek : peek chars (advance l) = chars (pos + 1) := by
    have := h.pos
    have := h.stop
    unfold peek
    rw [next_at (by dsimp only [advance]; omega), advance_pos, h.pos]
  simp [jsonRound, h.next_eq (Nat.lt_of_succ_lt hlt), hc, hpeek, hd, punctuation]

theorem lexerNext_number (num : BitVec 32) (h : Ready l pos stop)
    (hat : At chars pos (printkDec num ++ [c])) (hc : isDigit c = false ∧ c ≠ '.')
    (hlt : pos + (printkDec num).length < stop) :
    ∃ l', lexerNext chars l = (some ⟨.number, pos, pos + (printkDec num).length⟩, l') ∧
      Ready l' (pos + (printkDec num).length) stop := by
  have hpos := h.pos
  have hstop := h.stop
  -- behind its first character the number is digits
  have hrest : ∀ d s, (∀ d ∈ s, isDigit d = true) → printkDec num = d :: s →
      Emitted (lexerNumber chars (enter (advance l) .number))
        ⟨.number, pos, pos + (printkDec num).length⟩ (pos + (printkDec num).length) stop := by
    intro d s hs hnum
    rw [hnum] at hat hlt ⊢
    simp only [cons_append, at_cons, length_cons] at hat hlt ⊢
    have hrun : Emitted (lexerNumber chars (enter (advance l) .number))
        ⟨.number, l.start, l.pos + 1 + s.length⟩ (l.pos + 1 + s.length) l.stop :=
      rounds_number s hs (by rw [← hpos] at hat; exact hat.2) hc
        (by dsimp only [enter, advance]; omega) (by dsimp only [enter, advance]; omega)
    have hlen : pos + (s.length + 1) = l.pos + 1 + s.length := by omega
    rw [hlen, ← h.start, ← hstop]
    exact hrun
  obtain ⟨s, hs, hne, hnum | hnum⟩ := printkDec_shape num
  · obtain ⟨d, s, rfl⟩ := exists_cons_of_ne_nil hne
    have hd : isDigit (chars pos) = true := by
      rw [hnum, cons_append, at_cons] at hat
      rw [hat.1]
      exact hs d mem_cons_self
    exact lexerNext_enter h (by omega) (jsonRound_digit h (by omega) hd)
      (hrest d s (fun d hd => hs d (mem_cons_of_mem _ hd)) hnum) JsonTokens.noConfusion
  · obtain ⟨d, s, rfl⟩ := exists_cons_of_ne_nil hne
    have hchars := hat
    rw [hnum] at hchars
    simp only [cons_append, at_cons] at hchars
    have hlen : (printkDec num).length = s.length + 1 + 1 := by rw [hnum]; rfl
    have hd : isDigit (chars (pos + 1)) = true := hchars.2.1 ▸ hs d mem_cons_self
    exact lexerNext_enter h (by omega) (jsonRound_minus h (by omega) hchars.1 hd)
      (hrest '-' (d :: s) hs hnum) JsonTokens.noConfusion

theorem acceptRun_at (run : List Char) (hat : At chars l.pos run)
    (hle : l.pos + run.length ≤ l.stop) :
    acceptRun chars run l = some { l with pos := l.pos + run.length } := by
  induction run generalizing l with
  | nil => rfl
  | cons c run ih =>
    obtain ⟨hc, hat⟩ := at_cons.mp hat
    rw [length_cons] at hle ⊢
    have hne := not_not.mpr hc
    rw [acceptRun, next_at (by omega)]
    rw [if_neg hne, ih hat (by dsimp only [advance]; omega), advance_pos, Nat.add_assoc,
      Nat.add_comm 1]
    rfl

theorem emitted_word (run : List Char) (token : JsonTokens) (hat : At chars l.pos run)
    (hle : l.pos + run.length ≤ l.stop) : Emitted (lexerWord chars run token l)
      ⟨token, l.start, l.pos + run.length⟩ (l.pos + run.length) l.stop := by
  unfold lexerWord
  rw [acceptRun_at run hat hle]
  exact ⟨rfl, rfl, rfl, rfl, rfl⟩

def boolText (b : Bool) : List Char :=
  if b then ['t', 'r', 'u', 'e'] else ['f', 'a', 'l', 's', 'e']

def boolToken (b : Bool) : JsonTokens := if b then .true else .false

theorem lexerNext_word {run : List Char} (h : Ready l pos stop)
    (hc : c = 't' ∨ c = 'f') (hat : At chars pos (c :: run)) (hle : pos + (c :: run).length ≤ stop)
    (ht : token ≠ .none)
    (hword : ∀ l, (next chars (backup l)).1 = c → (next chars (backup l)).2 = l →
      lexerBoolean chars l = lexerWord chars run token l) :
    ∃ l', lexerNext chars l = (some ⟨token, pos, pos + (c :: run).length⟩, l') ∧
      Ready l' (pos + (c :: run).length) stop := by
  obtain rfl := h.pos
  obtain rfl := h.stop
  obtain ⟨hchr, hat⟩ := at_cons.mp hat
  rw [length_cons] at hle ⊢
  have hlt : l.pos < l.stop := by omega
  have hround : jsonRound chars l = .done (enter (advance l) .boolean) := by
    simp only [jsonRound, h.next_eq hlt, hchr]
    obtain rfl | rfl := hc <;> simp [punctuation]
  have hback : next chars (backup (enter (advance l) .boolean)) =
      (chars l.pos, enter (advance l) .boolean) := next_at hlt
  have hrun : Emitted (lexerBoolean chars (enter (advance l) .boolean))
      ⟨token, l.start, l.pos + 1 + run.length⟩ (l.pos + 1 + run.length) l.stop := by
    rw [hword _ (by rw [hback]; exact hchr) (by rw [hback])]
    exact emitted_word run token hat (by dsimp only [enter, advance]; omega)
  have hlen : l.pos + (run.length + 1) = l.pos + 1 + run.length := by omega
  rw [hlen]
  refine lexerNext_enter h hlt hround ?_ ht
  rw [h.start] at hrun
  exact hrun

theorem lexerNext_boolean (b : Bool) (h : Ready l pos stop) (hat : At chars pos (boolText b))
    (hle : pos + (boolText b).length ≤ stop) :
    ∃ l', lexerNext chars l = (some ⟨boolToken b, pos, pos + (boolText b).length⟩, l') ∧
      Ready l' (pos + (boolText b).length) stop := by
  cases b with
  | true =>
    refine lexerNext_word h (.inl rfl) hat hle JsonTokens.noConfusion fun l hc hl => ?_
    simp [lexerBoolean, hc, hl, boolToken]
  | false =>
    refine lexerNext_word h (.inr rfl) hat hle JsonTokens.noConfusion fun l hc hl => ?_
    simp [lexerBoolean, hc, hl, boolToken]

variable {name t : List Char}

section

variable (h : Ready l pos stop) (hname : '\x00' ∉ name)

include h hname

theorem key_at (hat : At chars pos (quoted name ++ ':' :: t))
    (hlt : pos + (quoted name).length < stop) :
    ∃ key l₁ l', lexerNext chars l = (some key, l₁) ∧ key.type = .string ∧
      Ready l' (pos + (quoted name).length + 1) stop ∧
      ∀ value l'', lexerNext chars l' = (some value, l'') → elementToken value.type = true →
        objValue chars key l₁ = (some ⟨pos + 1, (escape name).length, value⟩, l'') := by
  obtain ⟨hkey, hcolon⟩ := at_append.mp hat
  obtain ⟨l₁, hnext, hready⟩ := lexerNext_string h hname hkey (by omega)
  obtain ⟨l', hnext', hready'⟩ := lexerNext_punctuation hready hlt (at_cons.mp hcolon).1 rfl
    JsonTokens.noConfusion (by decide)
  refine ⟨_, l₁, l', hnext, rfl, hready', fun value l'' hvalue helem => ?_⟩
  simp [objValue, hnext', hvalue, helem]

theorem objNext_first (hat : At chars pos (quoted name ++ ':' :: t))
    (hlt : pos + (quoted name).length < stop) :
    ∃ l', Ready l' (pos + (quoted name).length + 1) stop ∧
      ∀ value l'', lexerNext chars l' = (some value, l'') → elementToken value.type = true →
        objNext chars l = (some ⟨pos + 1, (escape name).length, value⟩, l'') := by
  obtain ⟨_, _, l', hkey, htype, hready, hvalue⟩ := key_at h hname hat hlt
  refine ⟨l', hready, fun value l'' hv he => ?_⟩
  simp [objNext, hkey, htype, hvalue value l'' hv he]

theorem objNext_comma (hat : At chars pos (',' :: (quoted name ++ ':' :: t)))
    (hlt : pos + 1 + (quoted name).length < stop) :
    ∃ l', Ready l' (pos + 1 + (quoted name).length + 1) stop ∧
      ∀ value l'', lexerNext chars l' = (some value, l'') → elementToken value.type = true →
        objNext chars l = (some ⟨pos + 1 + 1, (escape name).length, value⟩, l'') := by
  obtain ⟨hc, hat⟩ := at_cons.mp hat
  obtain ⟨_, hcomma, hready₀⟩ := lexerNext_punctuation h (by omega) hc rfl
    JsonTokens.noConfusion (by decide)
  obtain ⟨_, _, l', hkey, htype, hready, hvalue⟩ := key_at hready₀ hname hat hlt
  refine ⟨l', hready, fun value l'' hv he => ?_⟩
  simp [objNext, hcomma, hkey, htype, hvalue value l'' hv he]

end

theorem objNext_end (h : Ready l pos stop) (hlt : pos < stop) (hc : chars pos = '\x7d') :
    ∃ kv l', objNext chars l = (some kv, l') ∧ kv.value.type = .objectEnd ∧
      Ready l' (pos + 1) stop := by
  obtain ⟨l', hnext, hready⟩ := lexerNext_punctuation h hlt hc rfl
    JsonTokens.noConfusion (by decide)
  refine ⟨⟨0, 0, ⟨.objectEnd, pos, pos + 1⟩⟩, l', ?_, rfl, hready⟩
  simp [objNext, hnext]

theorem arrNext_first {value : Token} (hnext : lexerNext chars l = (some value, l'))
    (he : elementToken value.type = true) : arrNext chars l = (some value, l') := by
  unfold arrNext
  cases ht : value.type <;> simp_all [elementToken]

theorem arrNext_comma (h : Ready l pos stop) (hlt : pos < stop) (hc : chars pos = ',') :
    ∃ l', Ready l' (pos + 1) stop ∧
      ∀ value l'', lexerNext chars l' = (some value, l'') → elementToken value.type = true →
        arrNext chars l = (some value, l'') := by
  obtain ⟨l', hcomma, hready⟩ := lexerNext_punctuation h hlt hc rfl
    JsonTokens.noConfusion (by decide)
  refine ⟨l', hready, fun value l'' hv he => ?_⟩
  simp [arrNext, hcomma, hv, he]

theorem arrNext_end (h : Ready l pos stop) (hlt : pos < stop) (hc : chars pos = ']') :
    ∃ value l', arrNext chars l = (some value, l') ∧ value.type = .listEnd ∧
      Ready l' (pos + 1) stop := by
  obtain ⟨l', hnext, hready⟩ := lexerNext_punctuation h hlt hc rfl
    JsonTokens.noConfusion (by decide)
  refine ⟨⟨.listEnd, pos, pos + 1⟩, l', ?_, rfl, hready⟩
  simp [arrNext, hnext]

end Zephyr.Json
