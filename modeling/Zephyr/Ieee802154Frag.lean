import Zephyr.NetPkt

/-! Fragmentation of IPv6 packets over IEEE 802.15.4: `ieee802154_fragment`, with the widths of its
variables. The loop does not end for some sizes of the buffers and has fuel. -/

namespace Zephyr.Ieee802154

open NetPkt List

abbrev Byte := BitVec 8
abbrev Buf := List Byte

def frag1HdrLen : Nat := 4
def fragNHdrLen : Nat := 5
def dispatchFrag1 : Byte := 0xC0#8
def dispatchFragN : Byte := 0xE0#8

/-- The room for data in a buffer, `frag->size - net_pkt_ll_reserve(pkt)`, the datagram size and
tag of the packet, and the difference between the headers before and after compression. -/
structure Cfg where
  room : Nat
  size : Nat
  tag : Nat
  hdrDiff : Int

section

variable (f : Buf) (cfg : Cfg)

/-- `prepare_new_fragment` and `set_up_frag_hdr`, for an offset of eight bits. -/
def setUpFragHdr (offset : Nat) : Buf :=
  [(if offset = 0 then dispatchFrag1 else dispatchFragN) ||| BitVec.ofNat 8 (cfg.size % 2048 / 256),
    BitVec.ofNat 8 cfg.size, BitVec.ofNat 8 (cfg.tag / 256), BitVec.ofNat 8 cfg.tag] ++
    if offset = 0 then [] else [BitVec.ofNat 8 offset]

def calcMaxPayload (room offset : Nat) : Nat :=
  (room + 256 - if offset = 0 then frag1HdrLen else fragNHdrLen) % 256 / 8 * 8

/-- The variables of the loop. `frags` has the fragments that have been made, the last one first,
and `src` the buffers that are left, `next` being the first of them. -/
structure Loop where
  frags : List Buf
  src : List Buf
  room : Nat
  max : Nat
  processed : Nat
  offset : Nat
  first : Bool

variable (s : Loop)

def prepare : Loop :=
  if s.room = 0 then
    let max := calcMaxPayload cfg.room (s.offset % 256)
    let processed := (s.processed + max) % 65536
    { s with
      frags := setUpFragHdr cfg (s.offset % 256) :: s.frags
      max
      processed
      offset := processed / 8 }
  else s

/-- The room that `move_frag_data` finds in the last fragment, in eight bits. -/
def moveRoom : Nat :=
  let frag := s.frags.headD []
  let occupied := (frag.length + 256 - if s.first then frag1HdrLen else fragNHdrLen) % 256
  let room := (s.max + 256 - occupied) % 256
  if s.first then ((room - cfg.hdrDiff) % 256).toNat else room

/-- `move_frag_data` and `compact_frag`; what remains in the buffer is counted in eight bits. -/
def moveFragData : Loop :=
  let frag := s.frags.headD []
  let next := s.src.headD []
  let room := moveRoom cfg s
  let move := if next.length > room then room else next.length
  let remaining := (next.length - move) % 256
  let next' := (next.drop move).take remaining
  { s with
    frags := (frag ++ next.take move) :: s.frags.tail
    src := if next'.isEmpty then s.src.tail else next' :: s.src.tail
    room := room - move
    first := false }

def fragLoop (cfg : Cfg) : Nat → Loop → Option (List Buf)
  | 0, _ => none
  | n + 1, s =>
    let s := moveFragData cfg (prepare cfg s)
    if s.src.isEmpty then some s.frags.reverse else fragLoop cfg n s

def start (frags : List Buf) : Loop where
  frags := []
  src := frags
  room := 0
  max := 0
  processed := 0
  offset := 0
  first := true

/-- `ieee802154_fragment`: the fragments with their headers. A single buffer stays as it is. -/
def ieee802154Fragment (room tag : Nat) (hdrDiff : Int) (fuel : Nat) (frags : List Buf) :
    Option (List Buf) :=
  match frags with
  | [] => none
  | [frag] => some [frag]
  | frags =>
    let size := ((frags.flatten.length + hdrDiff) % 65536).toNat
    fragLoop ⟨room, size, tag, hdrDiff⟩ fuel (start frags)

def hdrLen : Nat :=
  if f.getD 0 0 &&& 0xF0#8 = dispatchFragN then fragNHdrLen else frag1HdrLen

def payload : List Byte := f.drop (hdrLen f)

def offsetField : Nat :=
  if f.getD 0 0 &&& 0xF0#8 = dispatchFragN then (f.getD 4 0).toNat else 0

end

def covered (hdrDiff : Int) (frags : List Buf) : Int :=
  if frags.isEmpty then 0 else (frags.map payload).flatten.length + hdrDiff

/-- The fragments fit their buffers, have the bytes of the packet, are cut at multiples of eight
bytes of the uncompressed datagram and say where. -/
structure Good (room : Nat) (hdrDiff : Int) (whole : List Byte) (out : List Buf) : Prop where
  fits : ∀ f ∈ out, f.length ≤ room
  whole : (out.map payload).flatten = whole
  aligned : ∀ before f after, out = before ++ f :: after → after ≠ [] →
    8 ∣ covered hdrDiff (before ++ [f]) - covered hdrDiff before
  offset : ∀ before f after, out = before ++ f :: after →
    8 * (offsetField f : Int) = covered hdrDiff before

def Fits (room : Nat) (hdrDiff : Int) : Prop :=
  13 ≤ room ∧ room < 260 ∧ hdrDiff ≤ (room - 4) / 8 * 8 ∧ (room - 4) / 8 * 8 + 4 ≤ room + hdrDiff

variable {cfg : Cfg} {s : Loop} {whole p : List Byte} {done frags : List Buf} {pos offset : Nat}

theorem setUpFragHdr_head : ∀ d ∈ [dispatchFrag1, dispatchFragN], ∀ n < 8,
    (d ||| BitVec.ofNat 8 n) &&& 0xF0#8 = d := by
  decide

theorem setUpFragHdr_dispatch (cfg : Cfg) (offset : Nat) (p : List Byte) :
    (setUpFragHdr cfg offset ++ p).getD 0 0 &&& 0xF0#8 =
      if offset = 0 then dispatchFrag1 else dispatchFragN := by
  have hmem : (if offset = 0 then dispatchFrag1 else dispatchFragN) ∈
      [dispatchFrag1, dispatchFragN] := by
    split <;> simp
  exact setUpFragHdr_head _ hmem (cfg.size % 2048 / 256) (by omega)

theorem hdrLen_setUpFragHdr (cfg : Cfg) (offset : Nat) (p : List Byte) :
    hdrLen (setUpFragHdr cfg offset ++ p) = (setUpFragHdr cfg offset).length := by
  rw [hdrLen, setUpFragHdr_dispatch]
  by_cases h : offset = 0 <;> simp [setUpFragHdr, h, frag1HdrLen, fragNHdrLen, dispatchFrag1,
    dispatchFragN]

theorem payload_setUpFragHdr (cfg : Cfg) (offset : Nat) (p : List Byte) :
    payload (setUpFragHdr cfg offset ++ p) = p := by
  rw [payload, hdrLen_setUpFragHdr, drop_left]

theorem offsetField_setUpFragHdr (h : offset < 256) (p : List Byte) :
    offsetField (setUpFragHdr cfg offset ++ p) = offset := by
  rw [offsetField, setUpFragHdr_dispatch]
  by_cases h0 : offset = 0
  · simp [h0, dispatchFrag1, dispatchFragN]
  · simp [h0, setUpFragHdr]
    omega

/-- Fragments that cover the first `pos` bytes of the uncompressed datagram, a multiple of eight. -/
inductive Laid (cfg : Cfg) : List Buf → Nat → Prop
  | nil : Laid cfg [] 0
  | concat {done : List Buf} {pos : Nat} (h : Laid cfg done pos) (p : List Byte) (pos' : Nat)
      (hfits : (setUpFragHdr cfg (pos / 8) ++ p).length ≤ cfg.room) (hlt : pos < 2048)
      (hdvd : 8 ∣ pos')
      (hpos : (pos' : Int) = pos + p.length + if done = [] then cfg.hdrDiff else 0) :
      Laid cfg (done ++ [setUpFragHdr cfg (pos / 8) ++ p]) pos'

theorem Laid.dvd (h : Laid cfg done pos) : 8 ∣ pos := by
  cases h with
  | nil => exact Nat.dvd_zero 8
  | concat => assumption

theorem covered_concat (hdrDiff : Int) (done : List Buf) (f : Buf) : covered hdrDiff (done ++ [f]) =
      covered hdrDiff done + (payload f).length + if done = [] then hdrDiff else 0 := by
  cases done with
  | nil => simp [covered]
  | cons g done =>
    simp [covered]
    omega

theorem Laid.covered_eq (h : Laid cfg done pos) : covered cfg.hdrDiff done = pos := by
  induction h with
  | nil => rfl
  | concat h p pos' hfits hlt hdvd hpos ih =>
    rw [covered_concat, ih, payload_setUpFragHdr, hpos]

variable {f : Buf}

theorem Laid.split (h : Laid cfg done pos) {before after : List Buf}
    (heq : done = before ++ f :: after) : ∃ pos₀ p pos₁, Laid cfg before pos₀ ∧
      Laid cfg (before ++ [f]) pos₁ ∧ f = setUpFragHdr cfg (pos₀ / 8) ++ p ∧
        f.length ≤ cfg.room ∧ pos₀ < 2048 := by
  induction h generalizing after with
  | nil => simp at heq
  | @concat done pos h p pos' hfits hlt hdvd hpos ih =>
    cases after using reverseRecOn with
    | nil =>
      obtain ⟨rfl, hf⟩ := append_inj' heq rfl
      obtain rfl := (cons.inj hf).1
      exact ⟨pos, p, pos', h, h.concat p pos' hfits hlt hdvd hpos, rfl, hfits, hlt⟩
    | append_singleton after g =>
      rw [← cons_append, ← append_assoc] at heq
      obtain ⟨rfl, -⟩ := append_inj' heq rfl
      exact ih rfl

structure Fragments (cfg : Cfg) (whole : List Byte) (out done : List Buf) (pos : Nat)
    (p : List Byte) : Prop where
  laid : Laid cfg done pos
  lt : pos < 2048
  fits : (setUpFragHdr cfg (pos / 8) ++ p).length ≤ cfg.room
  ne : p ≠ []
  done_ne : done ≠ []
  out : out = done ++ [setUpFragHdr cfg (pos / 8) ++ p]
  whole : (done.map payload).flatten ++ p = whole

theorem Laid.good (h : Laid cfg done pos) (hlt : pos < 2048)
    (hfits : (setUpFragHdr cfg (pos / 8) ++ p).length ≤ cfg.room) :
    Good cfg.room cfg.hdrDiff ((done.map payload).flatten ++ p)
      (done ++ [setUpFragHdr cfg (pos / 8) ++ p]) where
  fits := by
    intro f hf
    rcases mem_append.mp hf with hf | hf
    · obtain ⟨before, after, heq⟩ := append_of_mem hf
      obtain ⟨_, _, _, _, _, _, hle, _⟩ := h.split heq
      exact hle
    · rwa [mem_singleton.mp hf]
  whole := by simp [payload_setUpFragHdr]
  aligned := by
    intro before f after heq hne
    cases after using reverseRecOn with
    | nil => exact absurd rfl hne
    | append_singleton after g =>
      rw [← cons_append, ← append_assoc] at heq
      obtain ⟨rfl, -⟩ := append_inj' heq rfl
      obtain ⟨pos₀, p, pos₁, h₀, h₁, -, -, -⟩ := h.split rfl
      rw [h₀.covered_eq, h₁.covered_eq]
      have := h₀.dvd
      have := h₁.dvd
      omega
  offset := by
    intro before f after heq
    cases after using reverseRecOn with
    | nil =>
      obtain ⟨rfl, hf⟩ := append_inj' heq rfl
      obtain rfl := (cons.inj hf).1
      rw [offsetField_setUpFragHdr (by omega), h.covered_eq]
      have := h.dvd
      omega
    | append_singleton after g =>
      rw [← cons_append, ← append_assoc] at heq
      obtain ⟨rfl, -⟩ := append_inj' heq rfl
      obtain ⟨pos₀, p, pos₁, h₀, h₁, rfl, -, hlt₀⟩ := h.split rfl
      rw [offsetField_setUpFragHdr (by omega), h₀.covered_eq]
      have := h₀.dvd
      omega

variable {out : List Buf}

theorem Fragments.good (h : Fragments cfg whole out done pos p) :
    Good cfg.room cfg.hdrDiff whole out := by
  rw [← h.whole, h.out]
  exact h.laid.good h.lt h.fits

def maxN (cfg : Cfg) : Nat := calcMaxPayload cfg.room 1

theorem calcMaxPayload_pos (h : offset ≠ 0) : calcMaxPayload cfg.room offset = maxN cfg := by
  rw [maxN, calcMaxPayload, calcMaxPayload, if_neg h, if_neg (by decide)]

/-- The buffers that are left, where `taken` has been moved: all but the last one are full, apart
from what has been taken of the first. -/
structure Pending (room : Nat) (whole taken next : List Byte) (rest : List Buf) : Prop where
  all : taken ++ (next ++ rest.flatten) = whole
  ne : next ≠ []
  le : next.length ≤ room
  compacted : Compacted room rest
  full : rest ≠ [] → ∃ j, (taken ++ next).length = j * room

variable {taken next : List Byte} {rest : List Buf} {room : Nat} {n : Nat} {q next' : List Byte}
  {rest' : List Buf}

theorem Pending.take (h : Pending room whole taken next rest) (hn : next.drop n ≠ []) :
    Pending room whole (taken ++ next.take n) (next.drop n) rest where
  all := by
    rw [append_assoc, ← append_assoc (next.take n), take_append_drop, h.all]
  ne := hn
  le := by
    have := h.le
    rw [length_drop]
    omega
  compacted := h.compacted
  full := by
    rw [append_assoc, take_append_drop]
    exact h.full

theorem Pending.tail (h : Pending room whole taken next rest) (hne : rest ≠ []) :
    ∃ next' rest', rest = next' :: rest' ∧ Pending room whole (taken ++ next) next' rest' := by
  obtain ⟨j, hj⟩ := h.full hne
  have hall := h.all
  cases rest with
  | nil => exact absurd rfl hne
  | cons next' rest' =>
    refine ⟨next', rest', rfl, ?_⟩
    rw [← append_assoc] at hall
    cases rest' with
    | nil => exact ⟨hall, h.compacted.1, h.compacted.2, trivial, fun hne => absurd rfl hne⟩
    | cons next'' rest'' =>
      refine ⟨hall, h.compacted.2.1, Nat.le_of_eq h.compacted.1, h.compacted.2.2,
        fun _ => ⟨j + 1, ?_⟩⟩
      rw [length_append, hj, h.compacted.1, Nat.succ_mul]

structure Complete (cfg : Cfg) (whole : List Byte) (s : Loop) (done : List Buf) (pos : Nat)
    (next : List Byte) (rest : List Buf) : Prop where
  frags : s.frags = done.reverse
  src : s.src = next :: rest
  first : s.first = false
  processed : s.processed = pos
  offset : s.offset = pos / 8
  laid : Laid cfg done pos
  ne : done ≠ []
  pos_eq : ∃ i, pos = (cfg.room - 4) / 8 * 8 + i * maxN cfg
  pending : Pending cfg.room whole (done.map payload).flatten next rest

/-- The last fragment has the data `p` and is not yet full. -/
structure Filling (cfg : Cfg) (whole : List Byte) (s : Loop) (done : List Buf) (pos : Nat)
    (p next : List Byte) (rest : List Buf) : Prop where
  frags : s.frags = (setUpFragHdr cfg (pos / 8) ++ p) :: done.reverse
  src : s.src = next :: rest
  first : s.first = false
  max : s.max = maxN cfg
  processed : s.processed = pos + maxN cfg
  offset : s.offset = (pos + maxN cfg) / 8
  laid : Laid cfg done pos
  ne : done ≠ []
  pos_eq : ∃ i, pos = (cfg.room - 4) / 8 * 8 + i * maxN cfg
  lt : p.length < maxN cfg
  pending : Pending cfg.room whole ((done.map payload).flatten ++ p) next rest
  next_le : next.length ≤ 255 + (maxN cfg - p.length)

structure Sizes (cfg : Cfg) (whole : List Byte) : Prop where
  fits : Fits cfg.room cfg.hdrDiff
  le : cfg.hdrDiff ≤ 48
  size_le : whole.length + cfg.hdrDiff ≤ 2047

theorem Sizes.maxN_eq (h : Sizes cfg whole) : maxN cfg = (cfg.room - 5) / 8 * 8 := by
  obtain ⟨h13, h260, -, -⟩ := h.fits
  simp only [maxN, calcMaxPayload, fragNHdrLen]
  rw [if_neg (by decide)]
  omega

theorem Sizes.pos_ne (h : Sizes cfg whole)
    (hpos : ∃ i, pos = (cfg.room - 4) / 8 * 8 + i * maxN cfg) : pos ≠ 0 := by
  have := h.fits.1
  omega

theorem Laid.pos_eq (h : Laid cfg done pos) (hne : done ≠ []) :
    (pos : Int) = (done.map payload).flatten.length + cfg.hdrDiff := by
  rw [← h.covered_eq, covered, if_neg (by simpa using hne)]

theorem Laid.pos_lt (h : Laid cfg done pos) (hne : done ≠ []) (hs : Sizes cfg whole)
    (hp : Pending cfg.room whole ((done.map payload).flatten ++ p) next rest) : pos < 2047 := by
  have hpos := h.pos_eq hne
  have hw := hs.size_le
  have hlen := congrArg length hp.all
  have hnext := length_pos_of_ne_nil hp.ne
  simp only [length_append] at hlen
  omega

theorem Complete.prepare {next : List Byte} {rest : List Buf} (hs : Sizes cfg whole)
    (h : Complete cfg whole s done pos next rest) (hroom : s.room = 0) :
    Filling cfg whole (prepare cfg s) done pos [] next rest := by
  have hp : Pending cfg.room whole ((done.map payload).flatten ++ []) next rest := by
    rw [append_nil]
    exact h.pending
  have hlt := h.laid.pos_lt h.ne hs hp
  have hdvd := h.laid.dvd
  have hmax := hs.maxN_eq
  obtain ⟨h13, h260, -, -⟩ := hs.fits
  have hpos := hs.pos_ne h.pos_eq
  have hoff : s.offset % 256 = pos / 8 := by
    rw [h.offset]
    omega
  have hle := h.pending.le
  have hpos8 : pos / 8 ≠ 0 := by omega
  have hproc : (s.processed + calcMaxPayload cfg.room (pos / 8)) % 65536 = pos + maxN cfg := by
    rw [calcMaxPayload_pos hpos8, h.processed]
    omega
  simp only [Ieee802154.prepare, if_pos hroom, hoff, hproc]
  exact {
    frags := by rw [h.frags, append_nil]
    src := h.src
    first := h.first
    max := calcMaxPayload_pos hpos8
    processed := rfl
    offset := rfl
    laid := h.laid
    ne := h.ne
    pos_eq := h.pos_eq
    lt := by rw [length_nil]; omega
    pending := hp
    next_le := by rw [length_nil]; omega }

theorem setUpFragHdr_length (h : offset ≠ 0) : (setUpFragHdr cfg offset).length = 5 := by
  simp [setUpFragHdr, h]

theorem moveFragData_eq (hfrags : s.frags = f :: done) (hsrc : s.src = next :: rest)
    (hroom : moveRoom cfg s = room) :
    moveFragData cfg s = { s with
        frags := (f ++ next.take room) :: done
        src := if ((next.drop room).take ((next.length - room) % 256)).isEmpty then rest
          else (next.drop room).take ((next.length - room) % 256) :: rest
        room := room - next.length
        first := false } := by
  simp only [moveFragData, hroom, hfrags, hsrc, headD_cons, tail_cons]
  split
  · congr 1
    omega
  · next hle =>
    rw [take_of_length_le (Nat.le_refl _), drop_of_length_le (Nat.le_refl _),
      take_of_length_le (Nat.le_of_not_lt hle), drop_of_length_le (Nat.le_of_not_lt hle),
      take_nil, take_nil]

section

variable (hs : Sizes cfg whole) (h : Filling cfg whole s done pos p next rest)

include hs h

theorem Filling.move_eq : moveFragData cfg s = { s with
        frags := (setUpFragHdr cfg (pos / 8) ++ (p ++ next.take (maxN cfg - p.length))) ::
          done.reverse
        src := if (next.drop (maxN cfg - p.length)).isEmpty then rest
          else next.drop (maxN cfg - p.length) :: rest
        room := maxN cfg - (p ++ next.take (maxN cfg - p.length)).length
        first := false } := by
  have hmax := hs.maxN_eq
  have hdvd := h.laid.dvd
  have hpos := hs.pos_ne h.pos_eq
  obtain ⟨h13, h260, -, -⟩ := hs.fits
  have hlt := h.lt
  have hle := h.next_le
  have hfrag : (setUpFragHdr cfg (pos / 8) ++ p).length = 5 + p.length := by
    rw [length_append, setUpFragHdr_length (by omega)]
  have hroom : moveRoom cfg s = maxN cfg - p.length := by
    simp only [moveRoom, h.frags, h.first, h.max, headD_cons, fragNHdrLen, Bool.false_eq_true,
      if_false]
    omega
  have hdrop : (next.drop (maxN cfg - p.length)).take
      ((next.length - (maxN cfg - p.length)) % 256) = next.drop (maxN cfg - p.length) :=
    take_of_length_le (by rw [length_drop]; omega)
  rw [moveFragData_eq h.frags h.src hroom, hdrop, append_assoc, length_append, length_take]
  congr 1
  omega

theorem Filling.laid_concat {q : List Byte} (hq : q.length = maxN cfg) :
    Laid cfg (done ++ [setUpFragHdr cfg (pos / 8) ++ q]) (pos + maxN cfg) := by
  have hmax := hs.maxN_eq
  have hdvd := h.laid.dvd
  have hpos := hs.pos_ne h.pos_eq
  have hlt := h.laid.pos_lt h.ne hs h.pending
  obtain ⟨h13, h260, -, -⟩ := hs.fits
  refine h.laid.concat q _ ?_ (by omega) (by omega) ?_
  · rw [length_append, setUpFragHdr_length (by omega)]
    omega
  · rw [if_neg h.ne]
    omega

theorem Filling.next_le' (hlt : q.length < maxN cfg)
    (hq : ∃ j, ((done.map payload).flatten ++ q).length = j * cfg.room)
    (hpend : Pending cfg.room whole ((done.map payload).flatten ++ q) next' rest') :
    next'.length ≤ 255 + (maxN cfg - q.length) := by
  have hle := hpend.le
  have hmax := hs.maxN_eq
  have hpos := h.laid.pos_eq h.ne
  obtain ⟨i, hi⟩ := h.pos_eq
  obtain ⟨j, hj⟩ := hq
  obtain ⟨h13, h260, hhd, hhd'⟩ := hs.fits
  have hhd48 := hs.le
  rw [length_append] at hj
  by_cases hc : cfg.room ≤ 256
  · omega
  · have hwhole := hs.size_le
    have hlen := congrArg length hpend.all
    simp only [length_append] at hlen
    have hj8 : j < 8 := by
      have : j * 257 ≤ j * cfg.room := Nat.mul_le_mul_left j (by omega)
      omega
    have hroom : cfg.room = 257 ∨ cfg.room = 258 ∨ cfg.room = 259 := by omega
    have hmax' : maxN cfg = 248 := by omega
    rw [hmax'] at hi hlt ⊢
    rcases hroom with hroom | hroom | hroom <;> rw [hroom] at hj hi hle <;>
      interval_cases j <;> omega

def Ready (cfg : Cfg) (whole : List Byte) (s : Loop) : Prop :=
  (s.room = 0 ∧ ∃ done pos next rest, Complete cfg whole s done pos next rest) ∨
    s.room ≠ 0 ∧ ∃ done pos p next rest, Filling cfg whole s done pos p next rest

theorem Filling.complete (hq : q.length = maxN cfg)
    (hpend : Pending cfg.room whole ((done.map payload).flatten ++ q) next' rest') :
    Ready cfg whole { s with
        frags := (setUpFragHdr cfg (pos / 8) ++ q) :: done.reverse
        src := next' :: rest'
        room := maxN cfg - q.length
        first := false } := by
  obtain ⟨i, hi⟩ := h.pos_eq
  refine .inl ⟨by dsimp only; omega, done ++ [setUpFragHdr cfg (pos / 8) ++ q], pos + maxN cfg,
    next', rest', ?_⟩
  exact {
    frags := by simp
    src := rfl
    first := rfl
    processed := h.processed
    offset := h.offset
    laid := h.laid_concat hs hq
    ne := by simp
    pos_eq := ⟨i + 1, by rw [Nat.succ_mul]; omega⟩
    pending := by simpa [payload_setUpFragHdr] using hpend }

theorem Filling.step : (moveFragData cfg s).src = [] ∧
        (∃ done pos p, Fragments cfg whole (moveFragData cfg s).frags.reverse done pos p) ∨
      Ready cfg whole (moveFragData cfg s) ∧
        (moveFragData cfg s).src.flatten.length < s.src.flatten.length ∧
        (moveFragData cfg s).src ≠ [] := by
  have hlt := h.lt
  have hnext := length_pos_of_ne_nil h.pending.ne
  rw [h.move_eq hs, h.src]
  by_cases hdrop : next.drop (maxN cfg - p.length) = []
  · -- the whole buffer goes into the fragment
    have hle := drop_eq_nil_iff.mp hdrop
    rw [take_of_length_le hle, hdrop, isEmpty_nil]
    by_cases hrest : rest = []
    · refine .inl ⟨hrest, ?_⟩
      have hall := h.pending.all
      have hmax := hs.maxN_eq
      have hpos := hs.pos_ne h.pos_eq
      have hdvd := h.laid.dvd
      have hlt' := h.laid.pos_lt h.ne hs h.pending
      rw [hrest, flatten_nil, append_nil, append_assoc] at hall
      exact ⟨done, pos, p ++ next, {
        laid := h.laid
        lt := by omega
        fits := by
          rw [length_append, setUpFragHdr_length (by omega), length_append]
          omega
        ne := by simp [h.pending.ne]
        done_ne := h.ne
        out := by simp
        whole := hall }⟩
    · obtain ⟨next', rest', rfl, hpend⟩ := h.pending.tail hrest
      refine .inr ⟨?_, by simpa using hnext, hrest⟩
      have hfull := h.pending.full hrest
      rw [append_assoc] at hpend hfull
      by_cases hq : (p ++ next).length = maxN cfg
      · exact h.complete hs hq hpend
      · have hlt' : (p ++ next).length < maxN cfg := by
          rw [length_append] at hq ⊢
          omega
        refine .inr ⟨by dsimp only; omega, done, pos, p ++ next, next', rest', ?_⟩
        exact { h with
          frags := rfl
          src := rfl
          first := rfl
          lt := hlt'
          pending := hpend
          next_le := h.next_le' hs hlt' hfull hpend }
  · have hgt : maxN cfg - p.length < next.length := by
      simpa using hdrop
    rw [if_neg (by simpa using hdrop)]
    have hq : (p ++ next.take (maxN cfg - p.length)).length = maxN cfg := by
      rw [length_append, length_take]
      omega
    have hpend := h.pending.take hdrop
    rw [append_assoc] at hpend
    refine .inr ⟨h.complete hs hq hpend, ?_, by simp⟩
    simp only [flatten_cons, length_append, length_drop]
    omega

end

theorem Ready.step (hs : Sizes cfg whole) (h : Ready cfg whole s) :
    let s' := moveFragData cfg (prepare cfg s)
    s'.src = [] ∧ (∃ done pos p, Fragments cfg whole s'.frags.reverse done pos p) ∨
      Ready cfg whole s' ∧ s'.src.flatten.length < s.src.flatten.length ∧ s'.src ≠ [] := by
  rcases h with ⟨hroom, done, pos, next, rest, h⟩ | ⟨hroom, done, pos, p, next, rest, h⟩
  · have hsrc : (prepare cfg s).src = s.src := by simp [prepare, hroom]
    rw [← hsrc]
    exact (h.prepare hs hroom).step hs
  · have hprep : prepare cfg s = s := if_neg hroom
    rw [hprep]
    exact h.step hs

theorem Ready.fragLoop (hs : Sizes cfg whole) (n : Nat) {s : Loop} (h : Ready cfg whole s) :
    (∀ out, fragLoop cfg n s = some out → ∃ done pos p, Fragments cfg whole out done pos p) ∧
      (s.src.flatten.length < n → (fragLoop cfg n s).isSome) := by
  induction n generalizing s with
  | zero => exact ⟨nofun, fun hlt => absurd hlt (Nat.not_lt_zero _)⟩
  | succ n ih =>
    simp only [Ieee802154.fragLoop]
    rcases h.step hs with ⟨hsrc, hgood⟩ | ⟨hready, hlt, hne⟩
    · rw [hsrc, isEmpty_nil, if_pos rfl]
      exact ⟨fun out hout => Option.some.inj hout ▸ hgood, fun _ => rfl⟩
    · rw [if_neg (by simpa using hne)]
      exact ⟨(ih hready).1, fun hn => (ih hready).2 (by omega)⟩

def room1 (cfg : Cfg) : Nat := (((calcMaxPayload cfg.room 0 : Nat) - cfg.hdrDiff) % 256).toNat

variable {frag : Buf} {fs : List Buf}

theorem first_step (cfg : Cfg) (frag : Buf) (fs : List Buf) :
    moveFragData cfg (prepare cfg (start (frag :: fs))) =
      { frags := [setUpFragHdr cfg 0 ++ frag.take (room1 cfg)]
        src := if ((frag.drop (room1 cfg)).take ((frag.length - room1 cfg) % 256)).isEmpty then fs
          else (frag.drop (room1 cfg)).take ((frag.length - room1 cfg) % 256) :: fs
        room := room1 cfg - frag.length
        max := calcMaxPayload cfg.room 0
        processed := calcMaxPayload cfg.room 0
        offset := calcMaxPayload cfg.room 0 / 8
        first := false } := by
  have hlt : calcMaxPayload cfg.room 0 < 256 := by
    unfold calcMaxPayload
    omega
  have hroom : moveRoom cfg (prepare cfg (start (frag :: fs))) = room1 cfg := by
    simp [moveRoom, prepare, start, setUpFragHdr, frag1HdrLen, room1]
  have hproc : (0 + calcMaxPayload cfg.room 0) % 65536 = calcMaxPayload cfg.room 0 := by omega
  rw [moveFragData_eq rfl rfl hroom]
  simp only [prepare, start, if_true, hproc]

theorem Fits.room1_eq (h : Fits cfg.room cfg.hdrDiff) :
    calcMaxPayload cfg.room 0 = (cfg.room - 4) / 8 * 8 ∧
      (room1 cfg : Int) = calcMaxPayload cfg.room 0 - cfg.hdrDiff := by
  obtain ⟨h13, h260, hle, hge⟩ := h
  have hmax : calcMaxPayload cfg.room 0 = (cfg.room - 4) / 8 * 8 := by
    simp only [calcMaxPayload, if_true, frag1HdrLen]
    omega
  refine ⟨hmax, ?_⟩
  rw [room1]
  omega

theorem ready_first (hs : Sizes cfg whole) {next : Buf}
    (hcomp : Compacted cfg.room (frag :: next :: fs))
    (hwhole : (frag :: next :: fs).flatten = whole) :
    Ready cfg whole (moveFragData cfg (prepare cfg (start (frag :: next :: fs)))) ∧
      (moveFragData cfg (prepare cfg (start (frag :: next :: fs)))).src ≠ [] ∧
      (moveFragData cfg (prepare cfg (start (frag :: next :: fs)))).src.flatten.length ≤
        whole.length := by
  have hlen := hcomp.1
  obtain ⟨hmax, hroom1⟩ := hs.fits.room1_eq
  obtain ⟨h13, h260, hle, hge⟩ := hs.fits
  have hhd := hs.le
  have hdrop : (frag.drop (room1 cfg)).take ((frag.length - room1 cfg) % 256) =
      frag.drop (room1 cfg) := by
    refine take_of_length_le ?_
    rw [length_drop]
    omega
  have hne : frag.drop (room1 cfg) ≠ [] := by
    rw [Ne, drop_eq_nil_iff]
    omega
  have htake : (frag.take (room1 cfg)).length = room1 cfg := by
    rw [length_take]
    omega
  rw [first_step, hdrop, if_neg (by simpa using hne)]
  refine ⟨.inl ⟨by dsimp only; omega, [setUpFragHdr cfg 0 ++ frag.take (room1 cfg)],
    calcMaxPayload cfg.room 0, frag.drop (room1 cfg), next :: fs, ?_⟩, by simp, ?_⟩
  · have hnil : Laid cfg [] 0 := .nil
    have hlaid := hnil.concat (frag.take (room1 cfg)) (calcMaxPayload cfg.room 0)
      (by simp [setUpFragHdr]; omega) (by omega) (by omega)
      (by rw [if_pos rfl]; omega)
    exact {
      frags := rfl
      src := rfl
      first := rfl
      processed := rfl
      offset := rfl
      laid := hlaid
      ne := by simp
      pos_eq := ⟨0, by omega⟩
      pending := by
        have hpay := payload_setUpFragHdr cfg 0 (frag.take (room1 cfg))
        rw [map_singleton, hpay, flatten_singleton]
        exact {
          all := by
            rw [← append_assoc, take_append_drop, ← hwhole]
            rfl
          ne := hne
          le := by rw [length_drop]; omega
          compacted := hcomp.2.2
          full := fun _ => ⟨1, by rw [take_append_drop, hlen, Nat.one_mul]⟩ } }
  · rw [← hwhole]
    simp only [flatten_cons, length_append, length_drop]
    omega

theorem step_frags (cfg : Cfg) {done : List Buf} (hfrags : s.frags = f :: done) :
    ∃ x, (moveFragData cfg (prepare cfg s)).frags =
      if s.room = 0 then (setUpFragHdr cfg (s.offset % 256) ++ x) :: f :: done
      else (f ++ x) :: done := by
  unfold prepare
  split
  · exact ⟨_, by simp [hfrags]; rfl⟩
  · exact ⟨_, by simp [moveFragData, hfrags]; rfl⟩

theorem fragLoop_succ_frags {out done : List Buf}
    (hfrags : (moveFragData cfg (prepare cfg s)).frags = f :: done)
    (h : fragLoop cfg (n + 1) s = some out) :
    ∃ x later, out = done.reverse ++ (f ++ x) :: later := by
  induction n generalizing s done f with
  | zero =>
    simp only [fragLoop] at h
    split at h
    · cases h
      exact ⟨[], [], by simp [hfrags]⟩
    · exact nomatch h
  | succ n ih =>
    rw [fragLoop] at h
    split at h
    · cases h
      exact ⟨[], [], by simp [hfrags]⟩
    · obtain ⟨y, hstep⟩ := step_frags cfg hfrags
      split at hstep
      · obtain ⟨x, later, rfl⟩ := ih hstep h
        exact ⟨[], _, by rw [append_nil, reverse_cons, append_assoc]; rfl⟩
      · obtain ⟨x, later, rfl⟩ := ih hstep h
        exact ⟨y ++ x, later, by simp⟩

def Framed (f : Buf) : Prop := f ≠ [] ∧ hdrLen f ≤ f.length

theorem Framed.payload_append (h : Framed f) (x : List Byte) :
    Framed (f ++ x) ∧ payload (f ++ x) = payload f ++ x := by
  have hlen : hdrLen (f ++ x) = hdrLen f := by
    obtain ⟨a, f, rfl⟩ := exists_cons_of_ne_nil h.1
    rfl
  refine ⟨⟨by simp [h.1], by rw [hlen, length_append]; exact Nat.le_add_right_of_le h.2⟩, ?_⟩
  rw [payload, payload, hlen, drop_append_of_le_length h.2]

theorem framed_setUpFragHdr (cfg : Cfg) (offset : Nat) : Framed (setUpFragHdr cfg offset) := by
  refine ⟨by simp [setUpFragHdr], ?_⟩
  have h := hdrLen_setUpFragHdr cfg offset []
  exact Nat.le_of_eq h

def bytes (s : Loop) : Nat := (s.frags.map payload).flatten.length + s.src.flatten.length

theorem prepare_bytes (cfg : Cfg) (hframed : ∀ f ∈ s.frags, Framed f)
    (hne : s.room ≠ 0 → s.frags ≠ []) :
    (∀ f ∈ (prepare cfg s).frags, Framed f) ∧ (prepare cfg s).frags ≠ [] ∧
      (prepare cfg s).src = s.src ∧ bytes (prepare cfg s) = bytes s := by
  unfold prepare
  split
  · have hpay := payload_setUpFragHdr cfg (s.offset % 256) []
    rw [append_nil] at hpay
    refine ⟨forall_mem_cons.mpr ⟨framed_setUpFragHdr cfg _, hframed⟩, by simp, rfl, ?_⟩
    simp [bytes, hpay]
  · next hroom => exact ⟨hframed, hne hroom, rfl, rfl⟩

theorem move_bytes (cfg : Cfg) (hframed : ∀ f ∈ s.frags, Framed f) (hne : s.frags ≠ [])
    (hsrc : s.src ≠ []) :
    (∀ f ∈ (moveFragData cfg s).frags, Framed f) ∧ (moveFragData cfg s).frags ≠ [] ∧
      bytes (moveFragData cfg s) ≤ bytes s := by
  obtain ⟨f, _, hfrags⟩ := exists_cons_of_ne_nil hne
  obtain ⟨next, _, hsrc⟩ := exists_cons_of_ne_nil hsrc
  rw [hfrags, forall_mem_cons] at hframed
  rw [moveFragData_eq hfrags hsrc rfl]
  obtain ⟨hframed', hpay⟩ := hframed.1.payload_append (next.take (moveRoom cfg s))
  refine ⟨forall_mem_cons.mpr ⟨hframed', hframed.2⟩, by simp, ?_⟩
  simp only [bytes, hfrags, hsrc, map_cons, flatten_cons, hpay, length_append]
  have hlen := congrArg length (take_append_drop (moveRoom cfg s) next)
  rw [length_append] at hlen
  have hle : ((next.drop (moveRoom cfg s)).take ((next.length - moveRoom cfg s) % 256)).length ≤
    (next.drop (moveRoom cfg s)).length := length_take_le' ..
  split
  · omega
  · rw [flatten_cons, length_append]
    omega

theorem fragLoop_bytes (hframed : ∀ f ∈ s.frags, Framed f)
    (hne : s.room ≠ 0 → s.frags ≠ []) (hsrc : s.src ≠ []) (h : fragLoop cfg n s = some out) :
    (out.map payload).flatten.length ≤ bytes s := by
  induction n generalizing s with
  | zero => exact nomatch h
  | succ n ih =>
    obtain ⟨hf, hne', hsrc', hb⟩ := prepare_bytes cfg hframed hne
    obtain ⟨hf', hne'', hb'⟩ := move_bytes cfg hf hne' (hsrc' ▸ hsrc)
    rw [fragLoop] at h
    split at h
    · cases h
      have hperm : ((moveFragData cfg (prepare cfg s)).frags.reverse.map payload).flatten.length =
          ((moveFragData cfg (prepare cfg s)).frags.map payload).flatten.length := by
        simp
      rw [bytes] at hb'
      omega
    · next hempty =>
      have := ih hf' (fun _ => hne'') (by simpa using hempty) h
      omega

theorem fragLoop_eq_none (hmax : maxN cfg = 0) (n : Nat) {s : Loop} (hroom : s.room = 0)
    (hfirst : s.first = false) (hoff : s.offset % 256 ≠ 0) (hproc : s.processed / 8 = s.offset)
    (hlt : s.processed < 65536) (hsrc : s.src = next :: rest) (hne : next ≠ [])
    (hle : next.length < 256) : fragLoop cfg n s = none := by
  induction n generalizing s with
  | zero => rfl
  | succ n ih =>
    have hprep : prepare cfg s =
        { s with frags := setUpFragHdr cfg (s.offset % 256) :: s.frags, max := 0 } := by
      have hproc' : (s.processed + 0) % 65536 = s.processed := by omega
      simp only [prepare, if_pos hroom, calcMaxPayload_pos hoff, hmax, hproc', hproc]
    have hmoveRoom : moveRoom cfg (prepare cfg s) = 0 := by
      simp [hprep, moveRoom, hfirst, setUpFragHdr_length hoff, fragNHdrLen]
    have hsrc' : (prepare cfg s).src = next :: rest := by rw [hprep, hsrc]
    have hfrags' : (prepare cfg s).frags = setUpFragHdr cfg (s.offset % 256) :: s.frags := by
      rw [hprep]
    have hmove := moveFragData_eq hfrags' hsrc' hmoveRoom
    have htake : next.take ((next.length - 0) % 256) = next :=
      take_of_length_le (by omega)
    rw [drop_zero, htake, if_neg (by simpa using hne)] at hmove
    rw [fragLoop, hmove]
    exact ih (by simp) rfl (by rw [hprep]; exact hoff) (by rw [hprep]; exact hproc)
      (by rw [hprep]; exact hlt) rfl

theorem fragLoop_succ (h : fragLoop cfg n s = some out)
    (hne : (moveFragData cfg (prepare cfg s)).src ≠ []) :
    ∃ m, n = m + 1 ∧ fragLoop cfg m (moveFragData cfg (prepare cfg s)) = some out := by
  cases n with
  | zero => exact nomatch h
  | succ n =>
    rw [fragLoop, if_neg (by simpa using hne)] at h
    exact ⟨n, rfl, h⟩

def afterFirst (cfg : Cfg) (frag : Buf) (fs : List Buf) : Loop where
  frags := [setUpFragHdr cfg 0 ++ frag.take (room1 cfg)]
  src := frag.drop (room1 cfg) :: fs
  room := 0
  max := calcMaxPayload cfg.room 0
  processed := calcMaxPayload cfg.room 0
  offset := calcMaxPayload cfg.room 0 / 8
  first := false

theorem afterFirst_of_good (hfs : fs ≠ [])
    (hlen : frag.length = cfg.room) (h : fragLoop cfg n (start (frag :: fs)) = some out)
    (hgood : Good cfg.room cfg.hdrDiff (frag :: fs).flatten out) :
    room1 cfg + 4 ≤ cfg.room ∧ cfg.room < room1 cfg + 256 ∧
      ∃ k, fragLoop cfg k (afterFirst cfg frag fs) = some out := by
  have hstep := first_step cfg frag fs
  have hsrc : (moveFragData cfg (prepare cfg (start (frag :: fs)))).src ≠ [] := by
    rw [hstep]
    split
    · exact hfs
    · simp
  obtain ⟨k, rfl, hk⟩ := fragLoop_succ h hsrc
  obtain ⟨x, _, hout⟩ := fragLoop_succ_frags (by rw [hstep]) h
  have hfits : room1 cfg + 4 ≤ cfg.room := by
    have := hgood.fits (setUpFragHdr cfg 0 ++ frag.take (room1 cfg) ++ x) (by simp [hout])
    simp only [length_append, length_take, setUpFragHdr, length_cons] at this
    omega
  have hpay := payload_setUpFragHdr cfg 0 (frag.take (room1 cfg))
  have hframed := ((framed_setUpFragHdr cfg 0).payload_append (frag.take (room1 cfg))).1
  have hlost : cfg.room < room1 cfg + 256 := by
    have hbytes := fragLoop_bytes (by rw [hstep]; simpa using hframed) (by rw [hstep]; simp) hsrc hk
    rw [hgood.whole, hstep, flatten_cons, length_append] at hbytes
    simp only [bytes, map_cons, map_nil, hpay, flatten_cons, flatten_nil,
      append_nil, length_take] at hbytes
    split at hbytes
    · omega
    · rw [flatten_cons, length_append, length_take] at hbytes
      omega
  refine ⟨hfits, hlost, k, ?_⟩
  have hdrop : (frag.drop (room1 cfg)).take ((frag.length - room1 cfg) % 256) =
      frag.drop (room1 cfg) := take_of_length_le (by rw [length_drop]; omega)
  have hne : frag.drop (room1 cfg) ≠ [] := by
    rw [Ne, drop_eq_nil_iff]
    omega
  have hroom : room1 cfg - frag.length = 0 := by omega
  rw [hdrop, if_neg (by simpa using hne), hroom] at hstep
  rwa [hstep] at hk

theorem room1_add_of_good {k : Nat} (hlen : room1 cfg ≤ frag.length)
    (h : fragLoop cfg k (afterFirst cfg frag fs) = some out)
    (hgood : Good cfg.room cfg.hdrDiff whole out) :
    (calcMaxPayload cfg.room 0 : Int) = room1 cfg + cfg.hdrDiff := by
  have hmax : calcMaxPayload cfg.room 0 < 256 ∧ 8 ∣ calcMaxPayload cfg.room 0 := by
    unfold calcMaxPayload
    omega
  have hpay := payload_setUpFragHdr cfg 0 (frag.take (room1 cfg))
  cases k with
  | zero => exact nomatch h
  | succ k =>
    obtain ⟨y, hfrags⟩ := step_frags cfg (s := afterFirst cfg frag fs) rfl
    obtain ⟨x, later, hout⟩ := fragLoop_succ_frags hfrags h
    have hoff := hgood.offset [setUpFragHdr cfg 0 ++ frag.take (room1 cfg)] _ later hout
    rw [append_assoc, offsetField_setUpFragHdr (by omega)] at hoff
    simp only [afterFirst, covered, isEmpty_cons, map_cons, map_nil, hpay,
      flatten_cons, flatten_nil, append_nil, length_take] at hoff
    simp only [Bool.false_eq_true, if_false] at hoff
    omega

theorem calcMaxPayload_ne_of_good {k : Nat} (hlen : room1 cfg + 2 ≤ frag.length)
    (hlt : frag.length < room1 cfg + 256) (h : fragLoop cfg k (afterFirst cfg frag fs) = some out)
    (hgood : Good cfg.room cfg.hdrDiff whole out)
    (hroom : (calcMaxPayload cfg.room 0 : Int) = room1 cfg + cfg.hdrDiff) :
    calcMaxPayload cfg.room 0 ≠ 0 := by
  intro hmax
  let f₁ := setUpFragHdr cfg 0 ++ frag.take (room1 cfg)
  let f₂ := setUpFragHdr cfg 0 ++ (frag.drop (room1 cfg)).take 1
  have hprep : prepare cfg (afterFirst cfg frag fs) = { afterFirst cfg frag fs with
        frags := [setUpFragHdr cfg 0, f₁], max := 0, processed := 0, offset := 0 } := by
    simp [prepare, afterFirst, hmax, f₁]
  have hmove : ∃ next, moveFragData cfg (prepare cfg (afterFirst cfg frag fs)) =
      { frags := [f₂, f₁], src := next :: fs, room := 0, max := 0, processed := 0, offset := 0
        first := false } := by
    have hroom1 : moveRoom cfg (prepare cfg (afterFirst cfg frag fs)) = 1 := by
      rw [hprep]
      simp [moveRoom, afterFirst, setUpFragHdr, fragNHdrLen]
    have hfrags : (prepare cfg (afterFirst cfg frag fs)).frags = [setUpFragHdr cfg 0, f₁] := by
      rw [hprep]
    have hsrc : (prepare cfg (afterFirst cfg frag fs)).src = frag.drop (room1 cfg) :: fs := by
      rfl
    have hne : ¬ ((frag.drop (room1 cfg)).drop 1).take
        (((frag.drop (room1 cfg)).length - 1) % 256) = [] := by
      rw [take_eq_nil_iff, drop_eq_nil_iff, length_drop]
      omega
    have hzero : 1 - (frag.drop (room1 cfg)).length = 0 := by
      rw [length_drop]
      omega
    refine ⟨((frag.drop (room1 cfg)).drop 1).take (((frag.drop (room1 cfg)).length - 1) % 256), ?_⟩
    rw [moveFragData_eq hfrags hsrc hroom1, if_neg (by simpa using hne), hzero, hprep]
  obtain ⟨next, hmove⟩ := hmove
  obtain ⟨k, rfl, hk⟩ := fragLoop_succ h (by rw [hmove]; simp)
  rw [hmove] at hk
  cases k with
  | zero => exact nomatch hk
  | succ k =>
    obtain ⟨y, hfrags⟩ := step_frags cfg (s := ⟨[f₂, f₁], next :: fs, 0, 0, 0, 0, false⟩) rfl
    obtain ⟨x, later, hout⟩ := fragLoop_succ_frags hfrags hk
    have hoff := hgood.offset [f₁, f₂] _ later hout
    have hpay₁ : payload f₁ = frag.take (room1 cfg) := payload_setUpFragHdr ..
    have hpay₂ : payload f₂ = (frag.drop (room1 cfg)).take 1 := payload_setUpFragHdr ..
    simp only [covered, isEmpty_cons, map_cons, map_nil, hpay₁, hpay₂,
      flatten_cons, flatten_nil, append_nil, length_append, length_take,
      length_drop, Bool.false_eq_true, if_false] at hoff
    omega

theorem fits_of_good (hhd : -1 ≤ cfg.hdrDiff) (hfs : fs ≠ [])
    (hlen : frag.length = cfg.room) (h : fragLoop cfg n (start (frag :: fs)) = some out)
    (hgood : Good cfg.room cfg.hdrDiff (frag :: fs).flatten out) : Fits cfg.room cfg.hdrDiff := by
  obtain ⟨hfits, hlost, k, hk⟩ := afterFirst_of_good hfs hlen h hgood
  have hroom := room1_add_of_good (by omega) hk hgood
  have hne := calcMaxPayload_ne_of_good (by omega) (by omega) hk hgood hroom
  have hmax : calcMaxPayload cfg.room 0 = (cfg.room + 252) % 256 / 8 * 8 := by
    simp [calcMaxPayload, frag1HdrLen]
  have h260 : cfg.room < 260 := by omega
  have h13 : 13 ≤ cfg.room := by
    by_contra hlt
    -- only 12 is left, where there is no room behind the longer header
    have h12 : cfg.room = 12 := by omega
    have hmaxN : maxN cfg = 0 := by rw [maxN, h12]; rfl
    have hnone := fragLoop_eq_none (s := afterFirst cfg frag fs) hmaxN k rfl rfl
      (by simp only [afterFirst]; omega) rfl (by simp only [afterFirst]; omega) rfl
      (by rw [Ne, drop_eq_nil_iff]; omega) (by rw [length_drop]; omega)
    exact nomatch hnone.symm.trans hk
  refine ⟨h13, h260, ?_, ?_⟩
  · omega
  · omega

variable {hdrDiff : Int}

/-- Where the header difference fits, fragmentation ends, and in general the fragments are good
exactly then. -/
theorem good_iff_fits (tag : Nat) (hcomp : Compacted room frags) (hlen : 2 ≤ frags.length)
    (hhd : -1 ≤ hdrDiff) (hhd' : hdrDiff ≤ 48) (hsize : frags.flatten.length + hdrDiff ≤ 2047) :
    (Fits room hdrDiff →
      (ieee802154Fragment room tag hdrDiff (frags.flatten.length + 2) frags).isSome) ∧
    ∀ n out, ieee802154Fragment room tag hdrDiff n frags = some out →
      (Good room hdrDiff frags.flatten out ↔ Fits room hdrDiff) := by
  match frags, hlen with
  | frag :: next :: fs, _ =>
    simp only [ieee802154Fragment]
    generalize (((frag :: next :: fs).flatten.length + hdrDiff) % 65536).toNat = size
    constructor
    · intro hfits
      have hs : Sizes ⟨room, size, tag, hdrDiff⟩ (frag :: next :: fs).flatten :=
        ⟨hfits, hhd', hsize⟩
      obtain ⟨hready, hne, hle⟩ := ready_first hs hcomp rfl
      rw [fragLoop, if_neg (by simpa using hne)]
      exact (hready.fragLoop hs _).2 (by omega)
    · intro n out hout
      refine ⟨fun hgood => fits_of_good hhd (cons_ne_nil _ _) hcomp.1 hout hgood,
        fun hfits => ?_⟩
      have hs : Sizes ⟨room, size, tag, hdrDiff⟩ (frag :: next :: fs).flatten :=
        ⟨hfits, hhd', hsize⟩
      obtain ⟨hready, hne, -⟩ := ready_first hs hcomp rfl
      obtain ⟨k, rfl, hk⟩ := fragLoop_succ hout hne
      obtain ⟨_, _, p, h⟩ := (hready.fragLoop hs k).1 out hk
      exact h.good

def twoBufs : List Buf := [replicate 116 0#8, [1#8]]

theorem twoBufs_compacted : Compacted 116 twoBufs := by
  refine ⟨rfl, by decide, by decide, by decide⟩

theorem twoBufs_good : ∃ out, ieee802154Fragment 116 7 20 119 twoBufs = some out ∧
    Good 116 20 twoBufs.flatten out := by
  have hfits : Fits 116 20 := by
    unfold Fits
    omega
  obtain ⟨hsome, hgood⟩ := good_iff_fits 7 twoBufs_compacted (by decide)
    (show (-1 : Int) ≤ 20 by decide) (by decide) (by decide)
  obtain ⟨out, hout⟩ := Option.isSome_iff_exists.mp (hsome hfits)
  exact ⟨out, hout, (hgood _ out hout).mpr hfits⟩

/-- With the dispatch byte of an uncompressed packet in front, the first fragment is longer than its
buffer. -/
theorem first_fragment_too_long : Compacted 116 twoBufs ∧
    (ieee802154Fragment 116 7 (-1) 200 twoBufs).map (map length) = some [117, 9] :=
  ⟨twoBufs_compacted, by decide +kernel⟩

end Zephyr.Ieee802154
