import Zephyr.Ieee802154Frag
import Zephyr.NetPktWrite
import Zephyr.SixLo
import Zephyr.Pieces
import Zephyr.Run

/-! Reassembly of the fragments of IPv6 packets over IEEE 802.15.4, which arrive in any order and
more than once. A byte in the cache has the sender of its frame. Entries are found by the size and
the tag of a datagram alone, so senders are kept apart as long as no two use the same at a time. -/

namespace Zephyr.Ieee802154

open NetPkt List

variable {σ : Type*}

abbrev Cell (σ : Type*) := Option (Byte × σ)

structure Entry (σ : Type*) where
  size : Nat
  tag : Nat
  frags : List (List (Cell σ))

abbrev Cache (σ : Type*) := List (Option (Entry σ))

inductive Verdict (σ : Type*) where
  | ok
  | drop
  | cont (pkt : List (Cell σ))

def Entry.hasKey (size tag : Nat) (e : Entry σ) : Bool := e.size == size && e.tag == tag

def clearReassCache (cache : Cache σ) (size tag : Nat) : Cache σ :=
  cache.map fun e => e.filter fun e => !e.hasKey size tag

def getReassCache (cache : Cache σ) (size tag : Nat) : Option Nat :=
  cache.findIdx? fun e => e.any (Entry.hasKey size tag)

def setReassCache (cache : Cache σ) : Option Nat := cache.findIdx? Option.isNone

def getDatagramSize (f : Buf) : Nat := (f.getD 0 0 &&& 0x1F#8).toNat * 256 + (f.getD 1 0).toNat

def getDatagramTag (f : Buf) : Nat := (f.getD 2 0).toNat * 256 + (f.getD 3 0).toNat

def cells (src : σ) (bytes : List Byte) : List (Cell σ) := bytes.map fun b => some (b, src)

def overwrite {A : Type*} (l : List A) (n : Nat) (x : List A) : List A :=
  (writeAt l n x).take l.length

def updateProtocolHeaderLengths (src : σ) (size : Nat) (pkt : List (Cell σ)) : List (Cell σ) :=
  let len := cells src (SixLo.be16 ((size + 65536 - SixLo.ipv6HLen) % 65536))
  let pkt := overwrite pkt 4 len
  if ((pkt.getD 6 none).map Prod.fst) = some SixLo.ipprotoUdp then overwrite pkt 44 len else pkt

def withLengths (size : Nat) (pkt : List Byte) : List Byte :=
  let len := SixLo.be16 ((size + 65536 - SixLo.ipv6HLen) % 65536)
  let pkt := overwrite pkt 4 len
  if pkt[6]? = some SixLo.ipprotoUdp then overwrite pkt 44 len else pkt

theorem overwrite_cells (src : σ) (l : List Byte) (n : Nat) (x : List Byte) :
    overwrite (cells src l) n (cells src x) = cells src (overwrite l n x) := by
  simp [overwrite, writeAt, cells]

theorem updateProtocolHeaderLengths_cells (src : σ) (size : Nat) (pkt : List Byte) :
    updateProtocolHeaderLengths src size (cells src pkt) = cells src (withLengths size pkt) := by
  simp only [updateProtocolHeaderLengths, withLengths, overwrite_cells]
  generalize overwrite pkt 4 (SixLo.be16 ((size + 65536 - SixLo.ipv6HLen) % 65536)) = pkt
  have hget : ((cells src pkt).getD 6 none).map Prod.fst = pkt[6]? := by
    rw [getD_eq_getElem?_getD, cells, getElem?_map]
    cases pkt[6]? <;> rfl
  rw [hget]
  split <;> rfl

/-- The second half of `add_frag_to_cache`, behind the header and uncompression. With `noBuf`,
`net_pkt_write` finds no buffer. -/
def addData (room : Nat) (cache : Cache σ) (src : σ) (noBuf : Bool) (size tag offset : Nat)
    (data : List Buf) : Cache σ × Verdict σ :=
  let input := data.map (cells src)
  match getReassCache cache size tag with
  | none =>
    match setReassCache cache with
    | none => (cache, .drop)
    | some i =>
      if noBuf then (clearReassCache cache size tag, .drop)
      else (cache.set i (some ⟨size, tag, copyFrag room none [] input offset⟩), .ok)
  | some i =>
    if noBuf then (clearReassCache cache size tag, .drop)
    else
      let frags := copyFrag room none ((cache.getD i none).elim [] Entry.frags) input offset
      if frags.flatten.length = size then
        (clearReassCache cache size tag, .cont (updateProtocolHeaderLengths src size frags.flatten))
      else (cache.set i (some ⟨size, tag, frags⟩), .ok)

def addFragToCache (env : SixLo.Env) (cache : Cache σ) (src : σ) (noBuf : Bool)
    (frags : List Buf) (first : Bool) : Cache σ × Verdict σ :=
  let head := frags.headD []
  let size := getDatagramSize head
  let tag := getDatagramTag head
  if first then
    match SixLo.net6loUncompress env (frags.modifyHead (drop frag1HdrLen)) with
    | none => (clearReassCache cache size tag, .drop)
    | some data => addData env.size cache src noBuf size tag 0 data
  else
    addData env.size cache src noBuf size tag ((head.getD 4 0).toNat * 8)
      (frags.modifyHead (drop fragNHdrLen))

def ieee802154Reassemble (env : SixLo.Env) (cache : Cache σ) (src : σ) (noBuf : Bool)
    (frags : List Buf) : Cache σ × Verdict σ :=
  let dispatch := (frags.headD []).getD 0 0 &&& 0xF0#8
  if frags.isEmpty then (cache, .drop)
  else if dispatch = dispatchFrag1 then addFragToCache env cache src noBuf frags true
  else if dispatch = dispatchFragN then addFragToCache env cache src noBuf frags false
  else
    match SixLo.net6loUncompress env frags with
    | none => (cache, .drop)
    | some frags => (cache, .cont (cells src frags.flatten))

variable {cache : Cache σ} {size tag i : Nat} {e : Entry σ}

theorem getReassCache_eq_none : getReassCache cache size tag = none ↔
    ∀ e, some e ∈ cache → ¬ e.hasKey size tag := by
  rw [getReassCache, findIdx?_eq_none_iff]
  constructor
  · intro h e he
    simpa using h _ he
  · intro h x hx
    cases x with
    | none => rfl
    | some e => simpa using h e hx

theorem exists_of_getReassCache (h : getReassCache cache size tag = some i) :
    ∃ e, cache[i]? = some (some e) ∧ e.size = size ∧ e.tag = tag := by
  rw [getReassCache, findIdx?_eq_some_iff_getElem] at h
  obtain ⟨hi, hkey, -⟩ := h
  obtain ⟨e, he, hkey⟩ := Option.any_eq_true _ _ |>.mp hkey
  refine ⟨e, by rw [getElem?_eq_getElem hi, he], ?_⟩
  simpa [Entry.hasKey] using hkey

theorem getReassCache_clear : getReassCache (clearReassCache cache size tag) size tag = none := by
  rw [getReassCache_eq_none]
  intro e he
  simp only [clearReassCache, mem_map, Option.filter_eq_some_iff] at he
  obtain ⟨x, -, -, hkey⟩ := he
  simpa using hkey

theorem setUpFragHdr_size (cfg : Cfg) (h : cfg.size < 2048) (offset : Nat) (p : Buf) :
    getDatagramSize (setUpFragHdr cfg offset ++ p) = cfg.size := by
  have hbits : ∀ d ∈ [dispatchFrag1, dispatchFragN], ∀ n < 8,
      ((d ||| BitVec.ofNat 8 n) &&& 0x1F#8).toNat = n := by decide
  have hmem : (if offset = 0 then dispatchFrag1 else dispatchFragN) ∈
      [dispatchFrag1, dispatchFragN] := by
    split <;> simp
  have hhigh := hbits _ hmem (cfg.size % 2048 / 256) (by omega)
  simp only [getDatagramSize, setUpFragHdr, cons_append, getD_cons_zero, getD_cons_succ,
    BitVec.toNat_ofNat]
  omega

theorem setUpFragHdr_tag (cfg : Cfg) (h : cfg.tag < 65536) (offset : Nat) (p : Buf) :
    getDatagramTag (setUpFragHdr cfg offset ++ p) = cfg.tag := by
  simp only [getDatagramTag, setUpFragHdr, cons_append, getD_cons_zero,
    getD_cons_succ, BitVec.toNat_ofNat]
  omega

structure Cut (env : SixLo.Env) where
  first : Buf
  head : List Buf
  rest : List Buf
  tag : Nat
  datagram : List Byte
  room_pos : 0 < env.size
  uncompress : SixLo.net6loUncompress env [first] = some head
  head_ne : head.flatten ≠ []
  rest_ne : rest ≠ []
  ne : ∀ p ∈ rest, p ≠ []
  dvd : ∀ p ∈ head.flatten :: rest.dropLast, 8 ∣ p.length
  size_le : (head.flatten ++ rest.flatten).length ≤ 2047
  tag_lt : tag < 65536
  restores : withLengths (head.flatten ++ rest.flatten).length (head.flatten ++ rest.flatten) =
    datagram

namespace Cut

variable {env : SixLo.Env} (cut : Cut env) {k : Nat}

def parts : List (List Byte) := cut.head.flatten :: cut.rest

def whole : List Byte := cut.parts.flatten

def pos (k : Nat) : Nat := (cut.parts.take k).flatten.length

def part (k : Nat) : List Byte := cut.parts.getD k []

def payload (k : Nat) : Buf := if k = 0 then cut.first else cut.part k

def data (k : Nat) : List Buf := if k = 0 then cut.head else [cut.part k]

def cfg : Cfg := ⟨env.size, cut.whole.length, cut.tag, 0⟩

def frame (k : Nat) : Buf := setUpFragHdr cut.cfg (cut.pos k / 8) ++ cut.payload k

theorem whole_length : cut.whole.length ≤ 2047 := cut.size_le

theorem pos_zero : cut.pos 0 = 0 := rfl

theorem pos_succ (hk : k < cut.parts.length) :
    cut.pos (k + 1) = cut.pos k + (cut.part k).length := by
  rw [pos, take_add_one, getElem?_eq_getElem hk, flatten_append, part, getD_eq_getElem?_getD,
    getElem?_eq_getElem hk]
  simp [pos]

theorem part_ne (hk : k < cut.parts.length) : cut.part k ≠ [] := by
  rw [part, getD_eq_getElem?_getD, getElem?_eq_getElem hk]
  have hmem := getElem_mem hk
  rcases mem_cons.mp hmem with heq | hmem
  · exact heq ▸ cut.head_ne
  · exact cut.ne _ hmem

theorem pos_lt_pos_succ (hk : k < cut.parts.length) : cut.pos k < cut.pos (k + 1) := by
  have := length_pos_of_ne_nil (cut.part_ne hk)
  rw [cut.pos_succ hk]
  omega

theorem pos_length : cut.pos cut.parts.length = cut.whole.length := by
  rw [pos, take_length, whole]

theorem pos_mono {j : Nat} (hjk : j ≤ k) : cut.pos j ≤ cut.pos k := by
  have hsub : (cut.parts.take j).flatten <+: (cut.parts.take k).flatten := by
    rw [← Nat.add_sub_cancel' hjk, take_add, flatten_append]
    exact prefix_append ..
  exact hsub.length_le

theorem dvd_pos (hk : k < cut.parts.length) : 8 ∣ cut.pos k := by
  induction k with
  | zero => exact Nat.dvd_zero 8
  | succ k ih =>
    rw [cut.pos_succ (by omega)]
    refine Nat.dvd_add (ih (by omega)) (cut.dvd _ ?_)
    have hlast : cut.head.flatten :: cut.rest.dropLast = cut.parts.dropLast :=
      (dropLast_cons_of_ne_nil cut.rest_ne).symm
    have hlt : k < cut.parts.dropLast.length := by
      rw [length_dropLast]
      omega
    have hpart : cut.part k = cut.parts.dropLast[k] := by
      rw [part, getD_eq_getElem?_getD, getElem?_eq_getElem (by omega),
        getElem_dropLast, Option.getD_some]
    rw [hlast, hpart]
    exact getElem_mem hlt

theorem data_flatten (k : Nat) : (cut.data k).flatten = cut.part k := by
  unfold data
  split
  · next hk => rw [hk]; rfl
  · simp

theorem data_ne (k : Nat) : cut.data k ≠ [] := by
  unfold data
  split
  · intro hnil
    exact cut.head_ne (by rw [hnil, flatten_nil])
  · simp

theorem reassemble_frame (cache : Cache σ) (src : σ) (noBuf : Bool) (hk : k < cut.parts.length) :
    ieee802154Reassemble env cache src noBuf [cut.frame k] =
      addData env.size cache src noBuf cut.whole.length cut.tag (cut.pos k) (cut.data k) := by
  have hsize : getDatagramSize (cut.frame k) = cut.whole.length :=
    setUpFragHdr_size cut.cfg (Nat.lt_succ_of_le cut.whole_length) ..
  have htag : getDatagramTag (cut.frame k) = cut.tag := setUpFragHdr_tag cut.cfg cut.tag_lt ..
  have hdispatch := setUpFragHdr_dispatch cut.cfg (cut.pos k / 8) (cut.payload k)
  rw [← frame] at hdispatch
  unfold ieee802154Reassemble
  rw [isEmpty_cons, if_neg Bool.false_ne_true]
  simp only [headD_cons, hdispatch]
  rcases Nat.eq_zero_or_pos k with rfl | hpos
  · have hdrop : (cut.frame 0).drop frag1HdrLen = cut.first := by
      rw [frame, pos_zero]
      rfl
    rw [if_pos (by rw [pos_zero]; rfl)]
    simp only [addFragToCache, headD_cons, hsize, htag, modifyHead_cons, hdrop, cut.uncompress]
    rfl
  · have hdvd := cut.dvd_pos hk
    have hlt := cut.pos_lt_pos_succ (Nat.zero_lt_of_lt hk)
    have hle := cut.pos_mono (show 0 + 1 ≤ k by omega)
    have hle' := cut.pos_mono (Nat.le_of_lt hk)
    have hwhole := cut.whole_length
    rw [cut.pos_length] at hle'
    have hoff : ¬ cut.pos k / 8 = 0 := by omega
    have hbyte : ((cut.frame k).getD 4 0).toNat * 8 = cut.pos k := by
      simp only [frame, setUpFragHdr, if_neg hoff, cons_append, nil_append,
        getD_cons_succ, getD_cons_zero, BitVec.toNat_ofNat]
      omega
    have hdrop : (cut.frame k).drop fragNHdrLen = cut.payload k :=
      drop_left' (setUpFragHdr_length hoff)
    rw [if_neg hoff]
    simp only [addFragToCache, headD_cons, hsize, htag, modifyHead_cons, hdrop, hbyte,
      payload, data, if_neg (Nat.pos_iff_ne_zero.mp hpos)]
    rfl

end Cut

theorem getReassCache_set (hi : i < cache.length) (hkey : e.hasKey size tag)
    (hfree : ∀ j < i, ∀ e, cache[j]? = some (some e) → ¬ e.hasKey size tag) :
    getReassCache (cache.set i (some e)) size tag = some i := by
  rw [getReassCache, findIdx?_eq_some_iff_getElem]
  refine ⟨by simpa using hi, by simpa using hkey, fun j hj => ?_⟩
  rw [getElem_set_ne (by omega)]
  cases hcell : cache[j] with
  | none => simp
  | some e' =>
    have hget : cache[j]? = some (some e') := by
      rw [getElem?_eq_getElem (by omega), hcell]
    simpa using hfree j hj e' hget

theorem not_hasKey_of_lt {j : Nat} (h : getReassCache cache size tag = some i) (hj : j < i)
    (e : Entry σ) (he : cache[j]? = some (some e)) : ¬ e.hasKey size tag := by
  rw [getReassCache, findIdx?_eq_some_iff_getElem] at h
  obtain ⟨hi, -, hbefore⟩ := h
  have hnot := hbefore j hj
  rw [getElem?_eq_getElem (by omega)] at he
  rw [Option.some.inj he] at hnot
  simpa using hnot

theorem setReassCache_isSome : (setReassCache cache).isSome ↔ none ∈ cache := by
  rw [setReassCache, findIdx?_isSome, any_eq_true]
  constructor
  · rintro ⟨x, hx, hnone⟩
    rwa [Option.isNone_iff_eq_none.mp hnone] at hx
  · exact fun h => ⟨none, h, rfl⟩

namespace Cut

variable {env : SixLo.Env} (cut : Cut env) {src : σ} {k : Nat} {R : Finset Nat}
  {frags : List (List (Cell σ))}

def count : Nat := cut.parts.length

theorem two_le_count : 2 ≤ cut.count := by
  have := length_pos_of_ne_nil cut.rest_ne
  rw [count, parts, length_cons]
  omega

theorem getElem?_whole {x : Nat} (hk : k < cut.count) (hle : cut.pos k ≤ x)
    (hlt : x < cut.pos (k + 1)) : cut.whole[x]? = (cut.part k)[x - cut.pos k]? := by
  rw [cut.pos_succ hk] at hlt
  have hparts : cut.whole =
      (cut.parts.take k).flatten ++ (cut.part k ++ (cut.parts.drop (k + 1)).flatten) := by
    have hpart : cut.part k = cut.parts[k] := by
      rw [part, getD_eq_getElem?_getD, getElem?_eq_getElem hk, Option.getD_some]
    rw [hpart, ← flatten_cons, ← drop_eq_getElem_cons hk, ← flatten_append, take_append_drop, whole]
  rw [hparts, getElem?_append_right hle, getElem?_append_left (by rw [← pos]; omega)]
  rfl

theorem exists_part {x : Nat} (hx : x < cut.whole.length) :
    ∃ k < cut.count, cut.pos k ≤ x ∧ x < cut.pos (k + 1) := by
  obtain ⟨before, l, _, hparts, hle, hlt⟩ := exists_append_cons_of_lt_flatten cut.parts x hx
  have hk : before.length < cut.parts.length := by simp [hparts]
  have hpos : cut.pos before.length = before.flatten.length := by
    rw [pos, hparts, take_left]
  have hpart : cut.part before.length = l := by simp [part, hparts]
  exact ⟨before.length, hk, by omega, by rw [cut.pos_succ hk, hpart]; omega⟩

/-- The chain has the fragments `R` in their places and ends where the last of them ends. -/
structure Shows (src : σ) (R : Finset Nat) (frags : List (List (Cell σ))) : Prop where
  dense : Dense env.size frags
  length : frags.flatten.length = R.sup fun k => cut.pos (k + 1)
  cell : ∀ k ∈ R, ∀ x, cut.pos k ≤ x → x < cut.pos (k + 1) →
    frags.flatten[x]? = (cells src cut.whole)[x]?

theorem shows_empty (src : σ) : cut.Shows src ∅ [] :=
  ⟨trivial, rfl, by simp⟩

variable {cut}

theorem Shows.insert (h : cut.Shows src R frags) (hk : k < cut.count) : cut.Shows src (insert k R)
      (copyFrag env.size none frags ((cut.data k).map (cells src)) (cut.pos k)) := by
  have hflat : ((cut.data k).map (cells src)).flatten = cells src (cut.part k) := by
    rw [← cut.data_flatten k, cells, map_flatten]
    rfl
  have hne : (cut.data k).map (cells src) ≠ [] := by simpa using cut.data_ne k
  obtain ⟨hdense, hcopy⟩ := copyFrag_spec none (cut.pos k) cut.room_pos h.dense hne
  rw [hflat] at hcopy
  have hlen : (cells src (cut.part k)).length = (cut.part k).length := length_map ..
  have hsucc := cut.pos_succ hk
  refine ⟨hdense, ?_, ?_⟩
  · rw [hcopy, patch_length, h.length, hlen, ← hsucc, Finset.sup_insert, max_comm]
  · intro j hj x hle hlt
    rw [hcopy, getElem?_patch, hlen]
    by_cases hin : cut.pos k ≤ x ∧ x < cut.pos k + (cut.part k).length
    · rw [if_pos hin, cells, cells, getElem?_map, getElem?_map,
        cut.getElem?_whole hk hin.1 (by omega)]
    · rw [if_neg hin]
      have hjR : j ∈ R := by
        rcases Finset.mem_insert.mp hj with rfl | hj
        · exact absurd ⟨hle, by omega⟩ hin
        · exact hj
      have hle' : cut.pos (j + 1) ≤ frags.flatten.length := by
        rw [h.length]
        exact Finset.le_sup (f := fun k => cut.pos (k + 1)) hjR
      rw [if_pos (by omega), h.cell j hjR x hle hlt]

theorem Shows.flatten_eq (h : cut.Shows src (Finset.range cut.count) frags) :
    frags.flatten = cells src cut.whole := by
  have hlen : frags.flatten.length = cut.whole.length := by
    rw [h.length, ← cut.pos_length]
    refine le_antisymm (Finset.sup_le fun k hk => cut.pos_mono (Finset.mem_range.mp hk)) ?_
    have htwo := cut.two_le_count
    have hlast : cut.count - 1 ∈ Finset.range cut.count := Finset.mem_range.mpr (by omega)
    have hle := Finset.le_sup (f := fun k => cut.pos (k + 1)) hlast
    rwa [Nat.sub_add_cancel (by omega)] at hle
  refine ext_getElem? fun x => ?_
  by_cases hx : x < cut.whole.length
  · obtain ⟨k, hk, hle, hlt⟩ := cut.exists_part hx
    exact h.cell k (Finset.mem_range.mpr hk) x hle hlt
  · rw [getElem?_eq_none (by omega), getElem?_eq_none (by rw [cells, length_map]; omega)]

theorem Shows.length_eq_iff (h : cut.Shows src R frags) (hR : R ⊆ Finset.range cut.count) :
    frags.flatten.length = cut.whole.length ↔ cut.count - 1 ∈ R := by
  have htwo := cut.two_le_count
  rw [h.length, ← cut.pos_length]
  constructor
  · intro hsup
    by_contra hlast
    have hle : (R.sup fun k => cut.pos (k + 1)) ≤ cut.pos (cut.count - 1) := by
      refine Finset.sup_le fun k hk => cut.pos_mono ?_
      have hlt := Finset.mem_range.mp (hR hk)
      have hne : k ≠ cut.count - 1 := fun heq => hlast (heq ▸ hk)
      omega
    have hlt := cut.pos_lt_pos_succ (Nat.sub_lt (by omega) Nat.one_pos : cut.count - 1 < cut.count)
    rw [hsup] at hle
    exact absurd hle (Nat.not_le.mpr hlt)
  · intro hlast
    refine le_antisymm (Finset.sup_le fun k hk => cut.pos_mono (Finset.mem_range.mp (hR hk))) ?_
    have hle := Finset.le_sup (f := fun k => cut.pos (k + 1)) hlast
    rwa [Nat.sub_add_cancel (by omega)] at hle

/-- The cache has the fragments `R` of the datagram, or room for an entry if there are none. -/
def Holding (cut : Cut env) (src : σ) (cache : Cache σ) (R : Finset Nat) : Prop :=
  if R = ∅ then getReassCache cache cut.whole.length cut.tag = none ∧ none ∈ cache
  else ∃ i e, getReassCache cache cut.whole.length cut.tag = some i ∧
    cache[i]? = some (some e) ∧ cut.Shows src R e.frags

theorem Holding.first (h : cut.Holding src cache ∅) (hk : k < cut.count) :
    ∃ cache', ieee802154Reassemble env cache src false [cut.frame k] = (cache', .ok) ∧
      cut.Holding src cache' {k} := by
  obtain ⟨hget, hfree⟩ := h
  obtain ⟨i, hi⟩ := Option.isSome_iff_exists.mp (setReassCache_isSome.mpr hfree)
  have hlt : i < cache.length := by
    rw [setReassCache, findIdx?_eq_some_iff_getElem] at hi
    exact hi.1
  have hrec := cut.reassemble_frame cache src false hk
  simp only [addData, hget, hi] at hrec
  refine ⟨_, hrec, ?_⟩
  refine ⟨i, _, getReassCache_set hlt (by simp [Entry.hasKey]) fun j _ e he =>
    getReassCache_eq_none.mp hget e (mem_of_getElem? he), getElem?_set_self hlt, ?_⟩
  exact (cut.shows_empty src).insert hk

theorem Holding.next (h : cut.Holding src cache R) (hne : R ≠ ∅) (hk : k < cut.count)
    (hR : R ⊆ Finset.range cut.count) :
    ∃ frags, cut.Shows src (Insert.insert k R) frags ∧
      if cut.count - 1 ∈ Insert.insert k R then
        ∃ cache', ieee802154Reassemble env cache src false [cut.frame k] =
          (cache', .cont (updateProtocolHeaderLengths src cut.whole.length frags.flatten)) ∧
          cut.Holding src cache' ∅
      else ∃ cache', ieee802154Reassemble env cache src false [cut.frame k] = (cache', .ok) ∧
          cut.Holding src cache' (Insert.insert k R) := by
  rw [Holding, if_neg hne] at h
  obtain ⟨i, e, hget, hcell, hshows⟩ := h
  have hlt := (List.getElem?_eq_some_iff.mp hcell).1
  have hins := hshows.insert hk
  have hrec := cut.reassemble_frame cache src false hk
  have hentry : (cache.getD i none).elim [] Entry.frags = e.frags := by
    rw [getD_eq_getElem?_getD, hcell]
    rfl
  have hsub := Finset.insert_subset (Finset.mem_range.mpr hk) hR
  have hiff := hins.length_eq_iff hsub
  simp only [addData, hget, hentry] at hrec
  refine ⟨_, hins, ?_⟩
  split
  · next hlast =>
    rw [if_pos (hiff.mpr hlast)] at hrec
    refine ⟨_, hrec, ?_⟩
    refine ⟨getReassCache_clear, ?_⟩
    obtain ⟨e', hcell', hsize, htag⟩ := exists_of_getReassCache hget
    refine mem_map.mpr ⟨some e', mem_of_getElem? hcell', ?_⟩
    simp [Entry.hasKey, hsize, htag]
  · next hlast =>
    rw [if_neg (fun heq => hlast (hiff.mp heq))] at hrec
    refine ⟨_, hrec, ?_⟩
    rw [Holding, if_neg (Finset.insert_ne_empty k R)]
    exact ⟨i, _, getReassCache_set hlt (by simp [Entry.hasKey])
      (fun j hj => not_hasKey_of_lt hget hj), getElem?_set_self hlt, hins⟩

/-- Every verdict is right: a packet is handed on exactly when with this fragment all have arrived
since the last time, and it is the datagram. -/
def Right (cut : Cut env) (src : σ) : Cache σ → Finset Nat → List Nat → Prop
  | _, _, [] => True
  | cache, R, k :: ks =>
    let r := ieee802154Reassemble env cache src false [cut.frame k]
    if Insert.insert k R = Finset.range cut.count then
      r.2 = .cont (cells src cut.datagram) ∧ Right cut src r.1 ∅ ks
    else (∀ pkt, r.2 ≠ .cont pkt) ∧ Right cut src r.1 (Insert.insert k R) ks

def LastComesLast (cut : Cut env) : Finset Nat → List Nat → Prop
  | _, [] => True
  | R, k :: ks =>
    (R ≠ ∅ → cut.count - 1 ∈ Insert.insert k R → Insert.insert k R = Finset.range cut.count) ∧
      LastComesLast cut
        (if Insert.insert k R = Finset.range cut.count then ∅ else Insert.insert k R) ks

instance LastComesLast.instDecidable (cut : Cut env) :
    (R : Finset Nat) → (ks : List Nat) → Decidable (cut.LastComesLast R ks)
  | _, [] => inferInstanceAs (Decidable True)
  | R, k :: ks =>
    have := instDecidable cut
      (if Insert.insert k R = Finset.range cut.count then ∅ else Insert.insert k R) ks
    inferInstanceAs (Decidable (_ ∧ _))

theorem Holding.right_iff (ks : List Nat) (hks : ∀ k ∈ ks, k < cut.count)
    (hR : R ⊆ Finset.range cut.count) (h : cut.Holding src cache R) :
    cut.Right src cache R ks ↔ cut.LastComesLast R ks := by
  induction ks generalizing cache R with
  | nil => exact Iff.rfl
  | cons k ks ih =>
    rw [forall_mem_cons] at hks
    have htwo := cut.two_le_count
    have hins := Finset.insert_subset (Finset.mem_range.mpr hks.1) hR
    have hlastMem : cut.count - 1 ∈ Finset.range cut.count := Finset.mem_range.mpr (by omega)
    unfold Right LastComesLast
    by_cases hempty : R = ∅
    · subst hempty
      obtain ⟨cache', hrec, hhold⟩ := h.first hks.1
      have hnot : ¬ Insert.insert k (∅ : Finset Nat) = Finset.range cut.count := by
        intro heq
        have hcard := congrArg Finset.card heq
        rw [Finset.card_range, insert_empty_eq, Finset.card_singleton] at hcard
        omega
      simp only [hrec, if_neg hnot]
      simpa using ih hks.2 hins hhold
    obtain ⟨frags, hshows, hnext⟩ := h.next hempty hks.1 hR
    by_cases hlast : cut.count - 1 ∈ Insert.insert k R
    · rw [if_pos hlast] at hnext
      obtain ⟨cache', hrec, hhold⟩ := hnext
      simp only [hrec]
      by_cases hall : Insert.insert k R = Finset.range cut.count
      · have hpkt : updateProtocolHeaderLengths src cut.whole.length frags.flatten =
            cells src cut.datagram := by
          rw [hall] at hshows
          rw [hshows.flatten_eq, updateProtocolHeaderLengths_cells]
          exact congrArg (cells src) cut.restores
        have hiff := ih hks.2 (Finset.empty_subset _) hhold
        simp [hall, hpkt, hiff]
      · simp [hall, hempty, Finset.mem_insert.mp hlast]
    · rw [if_neg hlast] at hnext
      obtain ⟨cache', hrec, hhold⟩ := hnext
      have hall : ¬ Insert.insert k R = Finset.range cut.count := fun heq =>
        hlast (heq ▸ hlastMem)
      simp only [hrec, if_neg hall, hlast]
      have hiff := ih hks.2 hins hhold
      simp [hiff]

/-- The verdicts are right for an order of arrival exactly if the last fragment comes last. -/
theorem right_iff_lastComesLast (ks : List Nat) (hks : ∀ k ∈ ks, k < cut.count)
    (hget : getReassCache cache cut.whole.length cut.tag = none) (hfree : none ∈ cache) :
    cut.Right src cache ∅ ks ↔ cut.LastComesLast ∅ ks := by
  have hhold : cut.Holding src cache ∅ := by
    exact ⟨hget, hfree⟩
  exact hhold.right_iff ks hks (Finset.empty_subset _)

end Cut

def plainEnv : SixLo.Env where
  size := 64
  zep1656 := false
  calcChksumUdp := fun _ => 0
  llSrc := ⟨.ieee802154, []⟩
  llDst := ⟨.ieee802154, []⟩

def threeParts (b : Byte) (tag : Fin 65536) : Cut plainEnv where
  first := SixLo.dispatchIpv6 ::
    ([0x60#8, 0#8, 0#8, 0#8, 0#8, 20#8, 59#8, 64#8] ++ replicate 40 b)
  head := [[0x60#8, 0#8, 0#8, 0#8, 0#8, 20#8, 59#8, 64#8] ++ replicate 40 b]
  rest := [replicate 8 b, replicate 4 b]
  tag := tag
  datagram := [0x60#8, 0#8, 0#8, 0#8, 0#8, 20#8, 59#8, 64#8] ++ replicate 52 b
  room_pos := by decide
  uncompress := by simp [SixLo.net6loUncompress, SixLo.dispatchIpv6, SixLo.dispatchIphc]
  head_ne := nofun
  rest_ne := nofun
  ne := by simp
  dvd := by simp
  size_le := by simp
  tag_lt := tag.isLt
  restores := by
    simp [withLengths, overwrite, writeAt, SixLo.be16, SixLo.ipv6HLen, SixLo.ipprotoUdp, replicate]

theorem threeParts_right : (threeParts 1 7).Right () [none] ∅ [0, 0, 1, 2] :=
  (Cut.right_iff_lastComesLast [0, 0, 1, 2] (by decide) (by decide) (by simp)).mpr (by decide)

/-- With the last fragment behind the first one a packet is handed on, and the bytes of the fragment
in between are whatever was in the buffer. -/
theorem handed_on_with_hole :
    (ieee802154Reassemble plainEnv [none] () false [(threeParts 1 7).frame 0]).2 = .ok ∧
      ∃ pkt, (ieee802154Reassemble plainEnv
        (ieee802154Reassemble plainEnv [none] () false [(threeParts 1 7).frame 0]).1 () false
          [(threeParts 1 7).frame 2]).2 = .cont pkt ∧ none ∈ pkt :=
  ⟨rfl, _, rfl, by decide +kernel⟩

open Option

variable {src : σ} {offset : Nat} {data : List Buf} {noBuf : Bool} {room : Nat}
  {r : Cache σ × Verdict σ}

structure Node (σ : Type*) where
  size : Nat
  size_pos : 0 < size
  zep1656 : Bool
  calcChksumUdp : List Buf → BitVec 16
  addr : SixLo.LinkAddr
  addrOf : σ → SixLo.LinkAddr

def Node.env (node : Node σ) (src : σ) : SixLo.Env where
  size := node.size
  zep1656 := node.zep1656
  calcChksumUdp := node.calcChksumUdp
  llSrc := node.addrOf src
  llDst := node.addr

structure Net (σ : Type*) where
  cache : Cache σ
  out : List (List (Cell σ))

def Verdict.packet? : Verdict σ → Option (List (Cell σ))
  | .cont pkt => some pkt
  | _ => none

inductive Act (σ : Type*) where
  | frame (src : σ) (noBuf : Bool) (frags : List Buf)
  | timeout (i : Nat)

def step (node : Node σ) (s : Net σ) : Act σ → Option (Net σ)
  | .frame src noBuf frags =>
    let r := ieee802154Reassemble (node.env src) s.cache src noBuf frags
    some ⟨r.1, s.out ++ r.2.packet?.toList⟩
  | .timeout i => some { s with cache := s.cache.set i none }

def Net.init (n : Nat) : Net σ := ⟨replicate n none, []⟩

def Entry.HasOther (src : σ) (e : Entry σ) : Prop :=
  ∃ b src', some (b, src') ∈ e.frags.flatten ∧ src' ≠ src

def received (cache : Cache σ) (size tag : Nat) : Nat :=
  match getReassCache cache size tag with
  | none => 0
  | some i => ((cache.getD i none).elim [] Entry.frags).flatten.length

/-- No other sender has a datagram of this size and tag in the cache, and what comes in front of the
fragment is there. -/
structure Apart (cache : Cache σ) (src : σ) (size tag offset : Nat) : Prop where
  key : ∀ e, some e ∈ cache → e.hasKey size tag → ¬ e.HasOther src
  place : offset ≤ received cache size tag

def fragOffset? (head : Buf) : Option Nat :=
  let dispatch := head.getD 0 0 &&& 0xF0#8
  if dispatch = dispatchFrag1 then some 0
  else if dispatch = dispatchFragN then some ((head.getD 4 0).toNat * 8)
  else none

def Separate (s : Net σ) : Act σ → Prop
  | .timeout _ => True
  | .frame src _ frags => ∀ offset, fragOffset? (frags.headD []) = some offset →
    Apart s.cache src (getDatagramSize (frags.headD [])) (getDatagramTag (frags.headD [])) offset

structure Entry.Pure (room : Nat) (e : Entry σ) : Prop where
  dense : Dense room e.frags
  bytes : ∃ src bytes, e.frags.flatten = cells src bytes

def Pure (room : Nat) (cache : Cache σ) : Prop := ∀ e, some e ∈ cache → e.Pure room

theorem cells_flatten (src : σ) (data : List Buf) :
    (data.map (cells src)).flatten = cells src data.flatten := by
  rw [cells, map_flatten]
  rfl

theorem Entry.Pure.bytes_eq (h : e.Pure room) (hother : ¬ e.HasOther src) :
    ∃ bytes, e.frags.flatten = cells src bytes := by
  obtain ⟨src', bytes, heq⟩ := h.bytes
  cases bytes with
  | nil => exact ⟨[], heq⟩
  | cons b bytes =>
    have hsrc : src' = src := by
      by_contra hne
      exact hother ⟨b, src', by rw [heq]; exact mem_cons_self, hne⟩
    exact ⟨b :: bytes, hsrc ▸ heq⟩

theorem patch_cells (src : σ) {l : List Byte} (x : List Byte) (h : offset ≤ l.length) :
    ∃ bytes, patch none (cells src l) offset (cells src x) = cells src bytes := by
  refine ⟨writeAt l offset x, ?_⟩
  have hlen : (cells src l).length = l.length := length_map ..
  rw [patch, hlen, Nat.sub_eq_zero_of_le h, replicate_zero]
  simp [writeAt, cells]

theorem copyFrag_cells (data : List Buf) {frags : List (List (Cell σ))} {bytes : List Byte}
    (hroom : 0 < room) (hdense : Dense room frags) (hbytes : frags.flatten = cells src bytes)
    (hle : offset ≤ frags.flatten.length) :
    Dense room (copyFrag room none frags (data.map (cells src)) offset) ∧
      ∃ bytes', (copyFrag room none frags (data.map (cells src)) offset).flatten =
        cells src bytes' := by
  cases data with
  | nil => exact ⟨hdense, bytes, hbytes⟩
  | cons d data =>
    obtain ⟨hcopy, hflat⟩ := copyFrag_spec none offset hroom hdense
      (cons_ne_nil (cells src d) (data.map (cells src)))
    have hlen : (cells src bytes).length = bytes.length := length_map ..
    rw [hbytes, ← map_cons, cells_flatten] at hflat
    rw [hbytes, hlen] at hle
    obtain ⟨bytes', heq⟩ := patch_cells src (d :: data).flatten hle
    exact ⟨hcopy, bytes', hflat.trans heq⟩

theorem mem_clearReassCache (h : some e ∈ clearReassCache cache size tag) : some e ∈ cache := by
  obtain ⟨x, hx, heq⟩ := mem_map.mp h
  exact (filter_eq_some_iff.mp heq).1 ▸ hx

theorem getElem?_clearReassCache (h : cache[i]? = some (some e)) (hkey : ¬ e.hasKey size tag) :
    (clearReassCache cache size tag)[i]? = some (some e) := by
  rw [clearReassCache, getElem?_map, h]
  simp [hkey]

theorem getElem?_setReassCache (h : setReassCache cache = some i) : cache[i]? = some none := by
  rw [setReassCache, findIdx?_eq_some_iff_getElem] at h
  obtain ⟨hi, hnone, -⟩ := h
  rw [getElem?_eq_getElem hi, isNone_iff_eq_none.mp hnone]

section

variable (h : addData room cache src noBuf size tag offset data = r)
include h

theorem addData_cases : r = (cache, .drop) ∨ r = (clearReassCache cache size tag, .drop) ∨
      ∃ i frags, (cache[i]? = some none ∧ frags = [] ∧ received cache size tag = 0 ∨
          ∃ e, cache[i]? = some (some e) ∧ e.hasKey size tag ∧ frags = e.frags ∧
            received cache size tag = e.frags.flatten.length) ∧
        let frags' := copyFrag room none frags (data.map (cells src)) offset
        (r = (cache.set i (some ⟨size, tag, frags'⟩), .ok) ∨ r = (clearReassCache cache size tag,
            .cont (updateProtocolHeaderLengths src size frags'.flatten))) := by
  subst h
  cases hget : getReassCache cache size tag with
  | none =>
    cases hset : setReassCache cache with
    | none => exact .inl (by simp only [addData, hget, hset])
    | some i =>
      cases hbuf : noBuf with
      | true => exact .inr (.inl (by simp only [addData, hget, hset, if_true]))
      | false =>
        have hreceived : received cache size tag = 0 := by rw [received, hget]
        refine .inr (.inr ⟨i, [], .inl ⟨getElem?_setReassCache hset, rfl, hreceived⟩, .inl ?_⟩)
        simp only [addData, hget, hset, Bool.false_eq_true, if_false]
  | some i =>
    obtain ⟨e, hcell, hsize, htag⟩ := exists_of_getReassCache hget
    have hfrags : (cache.getD i none).elim [] Entry.frags = e.frags := by
      rw [getD_eq_getElem?_getD, hcell]
      rfl
    cases hbuf : noBuf with
    | true => exact .inr (.inl (by simp only [addData, hget, if_true]))
    | false =>
      have hreceived : received cache size tag = e.frags.flatten.length := by
        rw [received, hget]
        exact congrArg (fun frags => frags.flatten.length) hfrags
      refine .inr (.inr ⟨i, e.frags, .inr ⟨e, hcell, ?_, rfl, hreceived⟩, ?_⟩)
      · simp [Entry.hasKey, hsize, htag]
      · simp only [addData, hget, hfrags, Bool.false_eq_true, if_false]
        split
        · exact .inr rfl
        · exact .inl rfl

theorem addData_pure (hroom : 0 < room)
    (hpure : Pure room cache) (hapart : Apart cache src size tag offset) :
    Pure room r.1 ∧ ∀ pkt, r.2.packet? = some pkt → ∃ bytes, pkt = cells src bytes := by
  have hclear : Pure room (clearReassCache cache size tag) := fun e he =>
    hpure e (mem_clearReassCache he)
  rcases addData_cases h with rfl | rfl | ⟨i, frags, hfrags, hr⟩
  · exact ⟨hpure, nofun⟩
  · exact ⟨hclear, nofun⟩
  have hchain : Dense room frags ∧ (∃ bytes, frags.flatten = cells src bytes) ∧
      offset ≤ frags.flatten.length := by
    have hplace := hapart.place
    rcases hfrags with ⟨-, rfl, hreceived⟩ | ⟨e, hcell, hkey, rfl, hreceived⟩
    · rw [hreceived] at hplace
      exact ⟨trivial, ⟨[], rfl⟩, hplace⟩
    · have he := hpure e (mem_of_getElem? hcell)
      rw [hreceived] at hplace
      exact ⟨he.dense, he.bytes_eq (hapart.key e (mem_of_getElem? hcell) hkey), hplace⟩
  obtain ⟨hdense, ⟨bytes, hbytes⟩, hle⟩ := hchain
  obtain ⟨hdense', bytes', hbytes'⟩ := copyFrag_cells data hroom hdense hbytes hle
  rcases hr with rfl | rfl
  · refine ⟨fun e he => ?_, nofun⟩
    rcases mem_or_eq_of_mem_set he with he | he
    · exact hpure e he
    · rw [some.inj he]
      exact ⟨hdense', src, bytes', hbytes'⟩
  · refine ⟨hclear, fun pkt hpkt => ⟨withLengths size bytes', ?_⟩⟩
    rw [← some.inj hpkt, hbytes', updateProtocolHeaderLengths_cells]

theorem addData_other (hkey : ∀ e, some e ∈ cache → e.hasKey size tag → ¬ e.HasOther src)
    (he : cache[i]? = some (some e)) (hother : e.HasOther src) : r.1[i]? = some (some e) := by
  have hnot : ¬ e.hasKey size tag := fun hk => hkey e (mem_of_getElem? he) hk hother
  have hclear := getElem?_clearReassCache he hnot
  rcases addData_cases h with rfl | rfl | ⟨j, _, hfrags, rfl | rfl⟩
  · exact he
  · exact hclear
  · have hne : j ≠ i := by
      rintro rfl
      rcases hfrags with ⟨hcell, -⟩ | ⟨_, hcell, hk, -⟩
      · rw [hcell] at he
        cases he
      · rw [hcell] at he
        exact hnot (some.inj (some.inj he) ▸ hk)
    rw [getElem?_set_ne hne, he]
  · exact hclear

end

theorem reassemble_cases {env : SixLo.Env} {frags : List Buf}
    (h : ieee802154Reassemble env cache src noBuf frags = r) :
    (r.1 = cache ∧ ∀ pkt, r.2.packet? = some pkt → ∃ bytes, pkt = cells src bytes) ∨
      ∃ offset, fragOffset? (frags.headD []) = some offset ∧
        let size := getDatagramSize (frags.headD [])
        let tag := getDatagramTag (frags.headD [])
        (r = (clearReassCache cache size tag, .drop) ∨
          ∃ data, addData env.size cache src noBuf size tag offset data = r) := by
  unfold ieee802154Reassemble at h
  by_cases hempty : frags.isEmpty
  · rw [if_pos hempty] at h
    subst h
    exact .inl ⟨rfl, nofun⟩
  rw [if_neg hempty] at h
  by_cases hfirst : (frags.headD []).getD 0 0 &&& 0xF0#8 = dispatchFrag1
  · rw [if_pos hfirst, addFragToCache, if_pos rfl] at h
    refine .inr ⟨0, if_pos hfirst, ?_⟩
    cases huncompress : SixLo.net6loUncompress env (frags.modifyHead (drop frag1HdrLen)) with
    | none => exact .inl (by rw [← h, huncompress])
    | some data => exact .inr ⟨data, by rw [← h, huncompress]⟩
  rw [if_neg hfirst] at h
  by_cases hnext : (frags.headD []).getD 0 0 &&& 0xF0#8 = dispatchFragN
  · rw [if_pos hnext, addFragToCache] at h
    exact .inr ⟨_, (if_neg hfirst).trans (if_pos hnext), .inr ⟨_, h⟩⟩
  · rw [if_neg hnext] at h
    refine .inl ?_
    cases huncompress : SixLo.net6loUncompress env frags with
    | none =>
      rw [huncompress] at h
      subst h
      exact ⟨rfl, nofun⟩
    | some data =>
      rw [huncompress] at h
      subst h
      exact ⟨rfl, fun pkt hpkt => ⟨_, (some.inj hpkt).symm⟩⟩

variable {node : Node σ} {s t : Net σ} {a : Act σ} {frags : List Buf}

structure Isolated (node : Node σ) (s : Net σ) : Prop where
  pure : Pure node.size s.cache
  out : ∀ pkt ∈ s.out, ∃ src bytes, pkt = cells src bytes

theorem isolated_init (n : Nat) : Isolated node (Net.init n) where
  pure := fun e he => by
    have := eq_of_mem_replicate he
    cases this
  out := nofun

theorem Isolated.step (h : Isolated node s) (hsep : Separate s a)
    (hstep : Ieee802154.step node s a = some t) : Isolated node t := by
  cases a with
  | timeout i =>
    cases hstep
    refine ⟨fun e he => ?_, h.out⟩
    rcases mem_or_eq_of_mem_set he with he | he
    · exact h.pure e he
    · cases he
  | frame src noBuf frags =>
    cases hstep
    obtain ⟨r, hr⟩ : ∃ r, ieee802154Reassemble (node.env src) s.cache src noBuf frags = r :=
      ⟨_, rfl⟩
    have hframe : Pure node.size r.1 ∧
        ∀ pkt, r.2.packet? = some pkt → ∃ bytes, pkt = cells src bytes := by
      rcases reassemble_cases hr with ⟨hcache, hpkt⟩ | ⟨offset, hoffset, rfl | ⟨_, hadd⟩⟩
      · exact ⟨hcache ▸ h.pure, hpkt⟩
      · exact ⟨fun e he => h.pure e (mem_clearReassCache he), nofun⟩
      · exact addData_pure hadd node.size_pos h.pure (hsep offset hoffset)
    rw [hr]
    refine ⟨hframe.1, fun pkt hmem => ?_⟩
    rcases mem_append.mp hmem with hmem | hmem
    · exact h.out pkt hmem
    · exact ⟨src, hframe.2 pkt (mem_toList.mp hmem)⟩

theorem step_other (hsep : Separate s (.frame src noBuf frags))
    (hstep : step node s (.frame src noBuf frags) = some t) (he : s.cache[i]? = some (some e))
    (hother : e.HasOther src) : t.cache[i]? = some (some e) := by
  cases hstep
  rcases reassemble_cases rfl with ⟨hcache, -⟩ | ⟨offset, hoffset, hclear | ⟨_, hadd⟩⟩
  · exact hcache ▸ he
  · rw [hclear]
    refine getElem?_clearReassCache he fun hkey => ?_
    exact (hsep offset hoffset).key e (mem_of_getElem? he) hkey hother
  · exact addData_other hadd (hsep offset hoffset).key he hother

/-- In every run whose fragments come apart from other senders' datagrams, each packet that is
handed on has bytes of one sender only, and no frame touches a partial datagram of another sender
than its own. -/
theorem isolated_of_run {n : Nat} (h : GuardedRun (step node) Separate (Net.init n) s) :
    (∀ pkt ∈ s.out, ∃ src bytes, pkt = cells src bytes) ∧
      ∀ src noBuf frags t, Separate s (.frame src noBuf frags) →
        step node s (.frame src noBuf frags) = some t → ∀ (i : Nat) (e : Entry σ),
          s.cache[i]? = some (some e) → e.HasOther src → t.cache[i]? = some (some e) :=
  ⟨(h.invariant (fun _ _ _ hs => hs.step) (isolated_init n)).out,
    fun _ _ _ _ hsep hstep _ _ => step_other hsep hstep⟩

instance Entry.instDecidableHasOther [DecidableEq σ] (src : σ) (e : Entry σ) :
    Decidable (e.HasOther src) :=
  decidable_of_iff (∃ p ∈ e.frags.flatten.reduceOption, p.2 ≠ src) <| by
    simp only [Entry.HasOther, reduceOption_mem_iff, Prod.exists]

instance Apart.instDecidable [DecidableEq σ] (cache : Cache σ) (src : σ) (size tag offset : Nat) :
    Decidable (Apart cache src size tag offset) :=
  decidable_of_iff ((∀ e ∈ cache.reduceOption, e.hasKey size tag → ¬ e.HasOther src) ∧
      offset ≤ received cache size tag) <| by
    simp only [reduceOption_mem_iff]
    exact ⟨fun h => ⟨h.1, h.2⟩, fun h => ⟨h.key, h.place⟩⟩

instance Separate.instDecidable [DecidableEq σ] (s : Net σ) : (a : Act σ) → Decidable (Separate s a)
  | .timeout _ => inferInstanceAs (Decidable True)
  | .frame _ _ _ => inferInstanceAs (Decidable (∀ _, _ = _ → _))

def plainNode : Node Bool where
  size := plainEnv.size
  size_pos := by decide
  zep1656 := plainEnv.zep1656
  calcChksumUdp := plainEnv.calcChksumUdp
  addr := plainEnv.llDst
  addrOf := fun _ => plainEnv.llSrc

def part (src : Bool) (b : Byte) (tag : Fin 65536) (k : Nat) : Act Bool :=
  .frame src false [(threeParts b tag).frame k]

def twoTags : Option (Net Bool) :=
  [part false 1 7 0, part true 2 8 0, part false 1 7 1, part true 2 8 1, part true 2 8 2].foldlM
    (fun s a => if Separate s a then step plainNode s a else none) (Net.init 2)

theorem twoTags_isSome : twoTags.isSome := by decide +kernel

theorem twoTags_isolated : (twoTags.get twoTags_isSome).out.length = 1 ∧
      ∀ pkt ∈ (twoTags.get twoTags_isSome).out, ∃ src bytes, pkt = cells src bytes :=
  ⟨by decide +kernel,
    (isolated_of_run (.of_foldlM (step plainNode) Separate _ (some_get _).symm)).1⟩

/-- With the same tag, the first fragment of the second sender takes the place of that of the
first sender. -/
theorem packet_of_two_senders :
    ∃ s pkt, [part false 1 7 0, part true 2 7 0, part false 1 7 1, part false 1 7 2].foldlM
        (step plainNode) (Net.init 2) = some s ∧ s.out = [pkt] ∧
      some (1#8, false) ∈ pkt ∧ some (2#8, true) ∈ pkt :=
  ⟨_, _, rfl, rfl, by decide +kernel, by decide +kernel⟩

end Zephyr.Ieee802154
