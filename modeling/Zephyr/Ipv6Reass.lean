import Zephyr.Pieces
import Zephyr.Run

/-! Putting the fragments of IPv6 datagrams together again: `handle_fragment_hdr` over the slots of
`reassembly`, with their timers. If the fragments arrive in the order of their offsets and no gap is
one that `fragment_verify` cannot see, a packet is fed back exactly when its fragments tile it. -/

namespace Zephyr.Ipv6Reass

open Function List

abbrev Byte := BitVec 8

structure Key where
  id : BitVec 32
  src : BitVec 128
  dst : BitVec 128
  deriving DecidableEq

/-- A received fragment: the headers in front of the fragment header, the place of the next header
field in the last of them, the fields of the fragment header, and the data. -/
structure Pkt where
  key : Key
  header : List Byte
  hdrPrev : Nat
  nexthdr : Byte
  flag : BitVec 16
  payload : List Byte
  fixed_le : 40 ≤ header.length
  dvd_header : 8 ∣ header.length
  payload_ne : payload ≠ []

namespace Pkt

def len (pkt : Pkt) : Nat := pkt.header.length + 8 + pkt.payload.length

def fragmentOffset (pkt : Pkt) : Nat := (pkt.flag &&& 0xfff8#16).toNat

def more (pkt : Pkt) : Bool := pkt.flag &&& 1#16 != 0#16

end Pkt

structure Config where
  maxCount : Nat
  maxPkt : Nat

structure Reassembly where
  remaining : Bool
  due : Bool
  key : Key
  pkt : Nat → Option Pkt

structure Datagram where
  header : List Byte
  payload : List Byte

structure State where
  reassembly : Nat → Reassembly
  fed : List Datagram

inductive Verdict where
  | ok
  | drop

variable (cfg : Config)

def setSlot (s : State) (i : Nat) (r : Reassembly) : State :=
  { s with reassembly := update s.reassembly i r }

def reassemblyGet (s : State) (key : Key) : Option (State × Nat) :=
  match (range cfg.maxCount).find? fun i =>
      (s.reassembly i).remaining && (s.reassembly i).key = key with
  | some i => some (s, i)
  | none =>
    match (range cfg.maxCount).find? fun i => !(s.reassembly i).remaining with
    | some i => some (setSlot s i ⟨true, false, key, (s.reassembly i).pkt⟩, i)
    | none => none

def reassemblyCancel (s : State) (key : Key) : State :=
  match (range cfg.maxCount).find? fun i => (s.reassembly i).key = key with
  | some i =>
    let r := s.reassembly i
    setSlot s i ⟨false, if r.remaining then false else r.due, { r.key with id := 0#32 },
      fun _ => none⟩
  | none => s

def shiftPackets (pkt : Nat → Option Pkt) (pos : Nat) : Option (Nat → Option Pkt) :=
  match (range cfg.maxPkt).find? fun i => pos < i && (pkt i).isNone with
  | some i =>
    if cfg.maxPkt - i < i - pos + 1 then none
    else some fun j => if i ≤ j ∧ j < i + (i - pos) then pkt (j - (i - pos)) else pkt j
  | none => none

def storeLoop (pkt : Nat → Option Pkt) (new : Pkt) : Nat → Nat → Option ((Nat → Option Pkt) × Nat)
  | 0, _ => none
  | n + 1, i =>
    match pkt i with
    | none => some (update pkt i (some new), i)
    | some old =>
      if old.fragmentOffset < new.fragmentOffset then storeLoop pkt new n (i + 1)
      else (shiftPackets cfg pkt i).map fun pkt => (update pkt i (some new), i)

def verifyLoop (pkt : Nat → Option Pkt) : Nat → Nat → Nat → Option Bool
  | 0, _, _ => some true
  | n + 1, i, prevLen =>
    match pkt i with
    | none => none
    | some p => if prevLen < p.fragmentOffset then some false else verifyLoop pkt n (i + 1) p.len

def fragmentVerify (pkt : Nat → Option Pkt) : Option Bool :=
  match pkt 0 with
  | none => none
  | some p =>
    if p.fragmentOffset ≠ 0 then some false else verifyLoop pkt (cfg.maxPkt - 1) 1 p.len

def reassemblePacket (first : Pkt) (pkt : Nat → Option Pkt) : Datagram :=
  let payload := (((range cfg.maxPkt).filterMap pkt).map Pkt.payload).flatten
  let len := first.header.length + payload.length - 40
  { header := ((first.header.set first.hdrPrev first.nexthdr).set 4
      (BitVec.ofNat 8 (len / 256))).set 5 (BitVec.ofNat 8 (len - len / 256 * 256))
    payload }

/-- `handle_fragment_hdr`; nothing comes of the use of a null pointer. -/
def handleFragmentHdr (s : State) (pkt : Pkt) : Option (State × Verdict) :=
  match reassemblyGet cfg s pkt.key with
  | none => some (s, .drop)
  | some (s, n) =>
    let reass := s.reassembly n
    match reass.pkt 0 with
    | none => some (setSlot s n { reass with pkt := update reass.pkt 0 (some pkt) }, .ok)
    | some _ =>
      match storeLoop cfg reass.pkt pkt cfg.maxPkt 0 with
      | none => some (reassemblyCancel cfg s reass.key, .drop)
      | some (stored, i) =>
        let kept := setSlot s n { reass with pkt := stored }
        if pkt.more then
          if pkt.len % 8 ≠ 0 then some (reassemblyCancel cfg kept reass.key, .drop)
          else some (kept, .ok)
        else
          match fragmentVerify cfg stored, stored 0 with
          | some true, some first =>
            let done := setSlot s n ⟨false, false, reass.key, fun _ => none⟩
            some ({ done with fed := s.fed ++ [reassemblePacket cfg first stored] }, .ok)
          | some false, _ =>
            let out := setSlot s n { reass with pkt := update stored i none }
            some (reassemblyCancel cfg out reass.key, .drop)
          | _, _ => none

/-- A fragment is received, the time of a slot is over, or its `reassembly_timeout` runs. -/
inductive Act where
  | recv (pkt : Pkt)
  | expire (i : Nat)
  | timeout (i : Nat)

structure Traced where
  st : State
  received : Key → List Pkt

def tracedStep (t : Traced) : Act → Option Traced
  | .recv pkt =>
    (handleFragmentHdr cfg t.st pkt).map fun r =>
      let old := t.received pkt.key
      { st := r.1
        received := update t.received pkt.key
          (if r.1.fed.length ≠ t.st.fed.length ∨ old.length + 1 = cfg.maxPkt then []
          else old ++ [pkt]) }
  | .expire i =>
    let r := t.st.reassembly i
    if i < cfg.maxCount ∧ r.remaining then
      some { st := setSlot t.st i { r with remaining := false, due := true }
             received := update t.received r.key [] }
    else none
  | .timeout i =>
    let r := t.st.reassembly i
    if i < cfg.maxCount ∧ r.due then
      some { t with st := reassemblyCancel cfg (setSlot t.st i { r with due := false }) r.key }
    else none

def start : Traced where
  st := ⟨fun _ => ⟨false, false, ⟨0#32, 0#128, 0#128⟩, fun _ => none⟩, []⟩
  received := fun _ => []

variable {cfg : Config} {s : State} {t t' : Traced} {pkt : Pkt} {l : List Pkt} {i j : Nat}

def Pkt.piece (pkt : Pkt) : Nat × List Byte := (pkt.fragmentOffset, pkt.payload)

structure Tiles (frags : List Pkt) (payload : List Byte) : Prop where
  assembles : Assembles (frags.map Pkt.piece) payload
  exists_last : ∃ p ∈ frags, p.more = false
  last : ∀ p ∈ frags, p.more = false → p.fragmentOffset + p.payload.length = payload.length

def Follows (p q : Pkt) : Prop := q.fragmentOffset = p.fragmentOffset + p.payload.length

/-- The test of `fragment_verify` tells whether `q` starts where `p` ends. -/
def Told (p q : Pkt) : Prop := q.fragmentOffset ≤ p.len ↔ Follows p q

def arrayOf (l : List Pkt) (j : Nat) : Option Pkt := l[j]?

theorem update_arrayOf (l : List Pkt) (new : Pkt) :
    update (arrayOf l) l.length (some new) = arrayOf (l ++ [new]) := by
  funext j
  simp only [update_apply, arrayOf, getElem?_append]
  split_ifs with hj hlt
  · omega
  · simp [hj]
  · rfl
  · rw [getElem?_eq_none (by omega), getElem?_eq_none]
    rw [length_singleton]
    omega

theorem storeLoop_arrayOf (cfg : Config) (hl : ∀ p ∈ l, p.fragmentOffset < pkt.fragmentOffset) :
    ∀ n i, i ≤ l.length → l.length < i + n →
      storeLoop cfg (arrayOf l) pkt n i = some (arrayOf (l ++ [pkt]), l.length)
  | 0, i, hi, hn => by omega
  | n + 1, i, hi, hn => by
    rw [storeLoop]
    rcases Nat.lt_or_eq_of_le hi with hlt | rfl
    · rw [arrayOf, getElem?_eq_getElem hlt]
      dsimp only
      rw [if_pos (hl _ (getElem_mem hlt)), storeLoop_arrayOf cfg hl n (i + 1) hlt (by omega)]
    · rw [arrayOf, getElem?_eq_none (Nat.le_refl _)]
      dsimp only
      rw [update_arrayOf]

theorem verifyLoop_arrayOf : ∀ (l : List Pkt) (p : Pkt) (rest : List Pkt),
    verifyLoop (arrayOf (l ++ p :: rest)) rest.length (l.length + 1) p.len =
      some (decide ((p :: rest).IsChain fun p q => q.fragmentOffset ≤ p.len))
  | l, p, [] => by simp [verifyLoop]
  | l, p, q :: rest => by
    have hq : arrayOf (l ++ p :: q :: rest) (l.length + 1) = some q := by
      simp [arrayOf]
    have hshift : l ++ p :: q :: rest = (l ++ [p]) ++ q :: rest := by simp
    have ih := verifyLoop_arrayOf (l ++ [p]) q rest
    rw [← hshift, length_append, length_singleton] at ih
    rw [length_cons, verifyLoop, hq]
    dsimp only
    rw [ih]
    by_cases hle : q.fragmentOffset ≤ p.len
    · rw [if_neg (by omega)]
      simp [hle]
    · rw [if_pos (by omega)]
      simp [hle]

theorem fragmentVerify_arrayOf {p : Pkt} {rest : List Pkt} (h : rest.length + 1 = cfg.maxPkt) :
    fragmentVerify cfg (arrayOf (p :: rest)) = some (decide (p.fragmentOffset = 0 ∧
      (p :: rest).IsChain fun p q => q.fragmentOffset ≤ p.len)) := by
  have hloop := verifyLoop_arrayOf [] p rest
  rw [nil_append, length_nil] at hloop
  have hfirst : arrayOf (p :: rest) 0 = some p := rfl
  rw [fragmentVerify, ← h, Nat.add_sub_cancel, hfirst]
  dsimp only
  rw [hloop]
  by_cases hp : p.fragmentOffset = 0 <;> simp [hp]

theorem filterMap_arrayOf (l : List Pkt) : (range l.length).filterMap (arrayOf l) = l := by
  induction l with
  | nil => rfl
  | cons p l ih =>
    rw [length_cons, range_succ_eq_map, filterMap_cons, filterMap_map]
    exact congrArg (p :: ·) ih

theorem payload_reassemblePacket (first : Pkt) (h : l.length = cfg.maxPkt) :
    (reassemblePacket cfg first (arrayOf l)).payload = (l.map Pkt.payload).flatten := by
  rw [reassemblePacket, ← h, filterMap_arrayOf]

theorem contiguous_iff : ∀ (b : Nat) (p : Pkt) (rest : List Pkt),
    Contiguous b ((p :: rest).map Pkt.piece) ↔ p.fragmentOffset = b ∧ (p :: rest).IsChain Follows
  | b, p, [] => by simp [Contiguous, Pkt.piece]
  | b, p, q :: rest => by
    have ih := contiguous_iff (b + p.payload.length) q rest
    rw [map_cons, Contiguous, isChain_cons_cons]
    refine and_congr_right fun hp => ?_
    obtain rfl : p.fragmentOffset = b := hp
    exact ih

theorem isChain_iff_follows (h : l.IsChain Told) :
    l.IsChain (fun p q => q.fragmentOffset ≤ p.len) ↔ l.IsChain Follows := by
  induction l with
  | nil => simp
  | cons p l ih =>
    cases l with
    | nil => simp
    | cons q l =>
      rw [isChain_cons_cons] at h ⊢
      rw [isChain_cons_cons]
      exact and_congr h.1 (ih h.2)

theorem tiles_iff (payload : List Byte) (hmore : ∀ p ∈ l, p.more = true) (hlast : pkt.more = false)
    (hsorted : (l ++ [pkt]).Pairwise fun p q => p.fragmentOffset < q.fragmentOffset) :
    Tiles (l ++ [pkt]) payload ↔ Contiguous 0 ((l ++ [pkt]).map Pkt.piece) ∧
      payload = ((l ++ [pkt]).map Pkt.payload).flatten := by
  have hsnd : ∀ frags : List Pkt, (frags.map Pkt.piece).map Prod.snd = frags.map Pkt.payload :=
    fun frags => by rw [map_map]; rfl
  constructor
  · intro h
    rw [← hsnd]
    refine h.assembles.contiguous ?_ (pairwise_map.mpr hsorted)
    intro p hp
    obtain ⟨q, -, rfl⟩ := mem_map.mp hp
    exact q.payload_ne
  · rintro ⟨h, rfl⟩
    refine ⟨hsnd _ ▸ h.assembles, ⟨pkt, by simp, hlast⟩, fun p hp hpl => ?_⟩
    obtain rfl : p = pkt := by
      rcases mem_append.mp hp with hp | hp
      · exact absurd (hmore p hp) (by rw [hpl]; decide)
      · exact mem_singleton.mp hp
    rw [map_append] at h
    have hoff := (contiguous_concat.mp h).2
    rw [hsnd, Nat.zero_add] at hoff
    rw [map_append, flatten_append, length_append, ← hoff, map_singleton, flatten_singleton]
    rfl

theorem not_tiles_of_more {payload : List Byte} (h : ∀ p ∈ l, p.more = true) :
    ¬ Tiles l payload := by
  intro ht
  obtain ⟨p, hp, hlast⟩ := ht.exists_last
  exact absurd (h p hp) (by rw [hlast]; decide)

structure GoodFrag (cfg : Config) (t : Traced) (pkt : Pkt) : Prop where
  done : ∀ i < cfg.maxCount, (t.st.reassembly i).due = false
  id : pkt.key.id ≠ 0#32
  slot : ∃ i < cfg.maxCount,
    (t.st.reassembly i).remaining = true → (t.st.reassembly i).key = pkt.key
  order : ∀ p ∈ t.received pkt.key, p.fragmentOffset < pkt.fragmentOffset
  more : pkt.more = true → (t.received pkt.key).length + 1 < cfg.maxPkt ∧
    (t.received pkt.key ≠ [] → pkt.len % 8 = 0)
  last : pkt.more = false → t.received pkt.key ≠ [] ∧ (t.received pkt.key).length + 1 = cfg.maxPkt ∧
    ((∀ p ∈ (t.received pkt.key).head?, p.fragmentOffset = 0) →
      (t.received pkt.key ++ [pkt]).IsChain Told)

def Good (cfg : Config) (t : Traced) : Act → Prop
  | .recv pkt => GoodFrag cfg t pkt
  | _ => True

def Reassembly.InUse (r : Reassembly) : Prop := r.remaining = true ∨ r.due = true

/-- The slots that are in use hold what has been received; no slot in front of one of them has its
key, so that `reassembly_cancel` finds it. -/
structure Holds (cfg : Config) (t : Traced) : Prop where
  held : ∀ i < cfg.maxCount, (t.st.reassembly i).remaining = true →
    (t.st.reassembly i).due = false ∧ t.received (t.st.reassembly i).key ≠ [] ∧
      (t.st.reassembly i).pkt = arrayOf (t.received (t.st.reassembly i).key)
  empty : ∀ i < cfg.maxCount, ¬ (t.st.reassembly i).InUse → (t.st.reassembly i).pkt = arrayOf []
  front : ∀ i < cfg.maxCount, (t.st.reassembly i).InUse → (t.st.reassembly i).key.id ≠ 0#32 ∧
    ∀ j < i, (t.st.reassembly j).key ≠ (t.st.reassembly i).key
  unused : ∀ k, (∀ i < cfg.maxCount, (t.st.reassembly i).remaining = true →
    (t.st.reassembly i).key ≠ k) → t.received k = []
  more : ∀ k, ∀ p ∈ t.received k, p.more = true
  sorted : ∀ k, (t.received k).Pairwise fun p q => p.fragmentOffset < q.fragmentOffset

theorem holds_start : Holds cfg start where
  held i _ h := nomatch h
  empty _ _ _ := by
    funext j
    simp [start, arrayOf]
  front i _ h := by
    rcases h with h | h <;> exact nomatch h
  unused _ _ := rfl
  more _ _ h := nomatch h
  sorted _ := .nil

theorem Holds.key_inj (h : Holds cfg t) (hi : i < cfg.maxCount) (hj : j < cfg.maxCount)
    (hri : (t.st.reassembly i).InUse) (hrj : (t.st.reassembly j).InUse)
    (hkey : (t.st.reassembly i).key = (t.st.reassembly j).key) : i = j := by
  rcases Nat.lt_trichotomy i j with hlt | heq | hlt
  · exact absurd hkey ((h.front j hj hrj).2 i hlt)
  · exact heq
  · exact absurd hkey.symm ((h.front i hi hri).2 j hlt)

variable {r : Reassembly}

theorem Holds.of_slot (h : Holds cfg t) {k : Key} {frags : List Pkt} (hi : i < cfg.maxCount)
    (hst : t'.st.reassembly = update t.st.reassembly i r)
    (hrec : t'.received = update t.received k frags)
    (hother : ∀ j < cfg.maxCount, j ≠ i → (t.st.reassembly j).InUse → (t.st.reassembly j).key ≠ k)
    (hold : (t.st.reassembly i).remaining = true → (t.st.reassembly i).key = k)
    (hkey : ∀ j < cfg.maxCount, i < j → (t.st.reassembly j).InUse → r.key ≠ (t.st.reassembly j).key)
    (hheld : r.remaining = true → r.due = false ∧ r.key = k ∧ frags ≠ [] ∧ r.pkt = arrayOf frags)
    (hempty : ¬ r.InUse → r.pkt = arrayOf []) (hunused : r.remaining = false → frags = [])
    (hfront : r.InUse → r.key.id ≠ 0#32 ∧ ∀ j < i, (t.st.reassembly j).key ≠ r.key)
    (hmore : ∀ p ∈ frags, p.more = true)
    (hsorted : frags.Pairwise fun p q => p.fragmentOffset < q.fragmentOffset) : Holds cfg t' := by
  have hself : t'.st.reassembly i = r := by rw [hst, update_self]
  have hne : ∀ j, j ≠ i → t'.st.reassembly j = t.st.reassembly j := by
    intro j hj
    rw [hst, update_of_ne hj]
  have hk : t'.received k = frags := by rw [hrec, update_self]
  have hk' : ∀ k', k' ≠ k → t'.received k' = t.received k' := by
    intro k' hk'
    rw [hrec, update_of_ne hk']
  constructor
  case held =>
    intro j hj hr
    by_cases hji : j = i
    · subst hji
      rw [hself] at hr ⊢
      obtain ⟨hdue, hkr, hfr, hp⟩ := hheld hr
      rw [hkr, hk]
      exact ⟨hdue, hfr, hp⟩
    · rw [hne j hji] at hr ⊢
      rw [hk' _ (hother j hj hji (.inl hr))]
      exact h.held j hj hr
  case empty =>
    intro j hj hr
    by_cases hji : j = i
    · subst hji
      rw [hself] at hr ⊢
      exact hempty hr
    · rw [hne j hji] at hr ⊢
      exact h.empty j hj hr
  case front =>
    intro j hj hr
    by_cases hji : j = i
    · subst hji
      rw [hself] at hr ⊢
      refine ⟨(hfront hr).1, fun m hm => ?_⟩
      rw [hne m (by omega)]
      exact (hfront hr).2 m hm
    · rw [hne j hji] at hr ⊢
      refine ⟨(h.front j hj hr).1, fun m hm => ?_⟩
      by_cases hmi : m = i
      · subst hmi
        rw [hself]
        exact hkey j hj hm hr
      · rw [hne m hmi]
        exact (h.front j hj hr).2 m hm
  case unused =>
    intro k' hu
    by_cases hkk : k' = k
    · subst hkk
      rw [hk]
      by_cases hr : r.remaining = true
      · exact absurd (hheld hr).2.1 (hself ▸ hu i hi (hself ▸ hr))
      · exact hunused (by simpa using hr)
    · rw [hk' k' hkk]
      refine h.unused k' fun j hj hr => ?_
      by_cases hji : j = i
      · subst hji
        exact fun hjk => hkk (hjk.symm.trans (hold hr))
      · rw [← hne j hji] at hr ⊢
        exact hu j hj hr
  case more =>
    intro k' p hp
    by_cases hkk : k' = k
    · exact hmore p (hk ▸ hkk ▸ hp)
    · exact h.more k' p (hk' k' hkk ▸ hp)
  case sorted =>
    intro k'
    by_cases hkk : k' = k
    · rw [hkk, hk]
      exact hsorted
    · rw [hk' k' hkk]
      exact h.sorted k'

theorem Holds.close (h : Holds cfg t) (hi : i < cfg.maxCount) (huse : (t.st.reassembly i).InUse)
    (hst : t'.st.reassembly = update t.st.reassembly i r)
    (hrec : t'.received = update t.received (t.st.reassembly i).key [])
    (hrem : r.remaining = false) (hkey : r.key = (t.st.reassembly i).key ∨ r.key.id = 0#32)
    (hdue : r.due = true → r.key = (t.st.reassembly i).key)
    (hempty : r.due = false → r.pkt = arrayOf []) : Holds cfg t' := by
  refine h.of_slot hi hst hrec ?_ (fun _ => rfl) ?_ ?_ ?_ (fun _ => rfl) ?_ (by simp) .nil
  · intro j hj hji hr hk
    exact hji (h.key_inj hj hi hr huse hk)
  · intro j hj hij hr hk
    rcases hkey with hkey | hkey
    · exact (h.front j hj hr).2 i hij (hkey ▸ hk)
    · exact (h.front j hj hr).1 (hk ▸ hkey)
  · intro hr
    exact absurd (hr.symm.trans hrem) (by decide)
  · intro hr
    exact hempty (Bool.eq_false_iff.mpr fun hd => hr (.inr hd))
  · rintro (hr | hd)
    · exact absurd (hr.symm.trans hrem) (by decide)
    · rw [hdue hd]
      exact h.front i hi huse

theorem setSlot_setSlot (s : State) (i : Nat) (r r' : Reassembly) :
    setSlot (setSlot s i r) i r' = setSlot s i r' := by
  simp [setSlot]

theorem reassemblyCancel_eq (hi : i < cfg.maxCount)
    (hfront : ∀ j < i, (s.reassembly j).key ≠ r.key) :
    reassemblyCancel cfg (setSlot s i r) r.key =
      setSlot s i ⟨false, if r.remaining then false else r.due, { r.key with id := 0#32 },
        arrayOf []⟩ := by
  have hself : (setSlot s i r).reassembly i = r := update_self ..
  have hfind : (range cfg.maxCount).find? (fun j => ((setSlot s i r).reassembly j).key = r.key)
      = some i := by
    refine find?_range_eq_some.mpr ⟨by rw [hself]; simp, mem_range.mpr hi, ?_⟩
    intro j hj
    have hne : (setSlot s i r).reassembly j = s.reassembly j := update_of_ne (by omega) ..
    simp [hne, hfront j hj]
  rw [reassemblyCancel, hfind]
  dsimp only
  rw [hself, setSlot_setSlot]
  rfl

theorem handle_first (h : Holds cfg t) (hg : GoodFrag cfg t pkt) (hnil : t.received pkt.key = []) :
    ∃ i < cfg.maxCount, (t.st.reassembly i).remaining = false ∧
      (∀ j < i, (t.st.reassembly j).remaining = true) ∧
      handleFragmentHdr cfg t.st pkt =
        some (setSlot t.st i ⟨true, false, pkt.key, arrayOf [pkt]⟩, .ok) := by
  have hnone : ∀ j < cfg.maxCount, (t.st.reassembly j).remaining = true →
      (t.st.reassembly j).key ≠ pkt.key := by
    intro j hj hr hkey
    exact (h.held j hj hr).2.1 (hkey ▸ hnil)
  have hfind : (range cfg.maxCount).find? (fun j =>
      (t.st.reassembly j).remaining && (t.st.reassembly j).key = pkt.key) = none := by
    refine find?_eq_none.mpr fun j hj => ?_
    simpa using hnone j (mem_range.mp hj)
  cases hidle : (range cfg.maxCount).find? fun j => !(t.st.reassembly j).remaining with
  | none =>
    obtain ⟨j, hj, hslot⟩ := hg.slot
    have hr : (t.st.reassembly j).remaining = true := by
      simpa using find?_eq_none.mp hidle j (mem_range.mpr hj)
    exact absurd (hslot hr) (hnone j hj hr)
  | some i =>
    obtain ⟨hri, hi, hlt⟩ := find?_range_eq_some.mp hidle
    have hi := mem_range.mp hi
    have hri : (t.st.reassembly i).remaining = false := by simpa using hri
    have hempty := h.empty i hi (by simp [Reassembly.InUse, hri, hg.done i hi])
    refine ⟨i, hi, hri, fun j hj => by simpa using hlt j hj, ?_⟩
    rw [handleFragmentHdr, reassemblyGet, hfind, hidle]
    dsimp only
    rw [show (setSlot t.st i _).reassembly i = _ from update_self ..]
    rw [hempty]
    rw [setSlot_setSlot]
    exact congrArg (fun a => some (setSlot t.st i ⟨true, false, pkt.key, a⟩, Verdict.ok))
      (update_arrayOf [] pkt)

theorem handle_next (h : Holds cfg t) (hg : GoodFrag cfg t pkt) (hne : t.received pkt.key ≠ []) :
    ∃ i < cfg.maxCount, (t.st.reassembly i).remaining = true ∧
      (t.st.reassembly i).key = pkt.key ∧ handleFragmentHdr cfg t.st pkt =
        if pkt.more then
          some (setSlot t.st i ⟨true, false, pkt.key, arrayOf (t.received pkt.key ++ [pkt])⟩, .ok)
        else
          match fragmentVerify cfg (arrayOf (t.received pkt.key ++ [pkt])),
            arrayOf (t.received pkt.key ++ [pkt]) 0 with
          | some true, some first =>
            some ({ setSlot t.st i ⟨false, false, pkt.key, arrayOf []⟩ with
              fed := t.st.fed ++ [reassemblePacket cfg first
                (arrayOf (t.received pkt.key ++ [pkt]))] }, .ok)
          | some false, _ =>
            some (setSlot t.st i ⟨false, false, { pkt.key with id := 0#32 }, arrayOf []⟩, .drop)
          | _, _ => none := by
  cases hfind : (range cfg.maxCount).find? fun j =>
      (t.st.reassembly j).remaining && (t.st.reassembly j).key = pkt.key with
  | none =>
    refine absurd (h.unused pkt.key fun j hj hr hkey => ?_) hne
    exact find?_eq_none.mp hfind j (mem_range.mpr hj) (by simp [hr, hkey])
  | some i =>
    obtain ⟨hri, hi, -⟩ := find?_range_eq_some.mp hfind
    have hi := mem_range.mp hi
    obtain ⟨hr, hkey⟩ : (t.st.reassembly i).remaining = true ∧
        (t.st.reassembly i).key = pkt.key := by simpa using hri
    refine ⟨i, hi, hr, hkey, ?_⟩
    obtain ⟨hdue, -, hpkt⟩ := h.held i hi hr
    rw [hkey] at hpkt
    obtain ⟨_, hfirst⟩ : ∃ p, arrayOf (t.received pkt.key) 0 = some p := by
      obtain ⟨p, l, hl⟩ := exists_cons_of_ne_nil hne
      exact ⟨p, by rw [hl]; rfl⟩
    have hlen : (t.received pkt.key).length < 0 + cfg.maxPkt := by
      cases hm : pkt.more with
      | true =>
        have := (hg.more hm).1
        omega
      | false =>
        have := (hg.last hm).2.1
        omega
    have hstore := storeLoop_arrayOf cfg hg.order cfg.maxPkt 0 (Nat.zero_le _) hlen
    have hslot : t.st.reassembly i = ⟨true, false, pkt.key, arrayOf (t.received pkt.key)⟩ := by
      rw [← hr, ← hdue, ← hpkt, ← hkey]
    have hfront : ∀ j < i, (t.st.reassembly j).key ≠ pkt.key := hkey ▸ (h.front i hi (.inl hr)).2
    rw [handleFragmentHdr, reassemblyGet, hfind]
    dsimp only
    rw [hslot]
    dsimp only
    rw [hfirst]
    rw [hstore]
    dsimp only
    cases hm : pkt.more with
    | true =>
      rw [if_pos rfl, if_pos rfl, if_neg (not_not_intro ((hg.more hm).2 hne))]
    | false =>
      rw [if_neg Bool.false_ne_true]
      cases hv : fragmentVerify cfg (arrayOf (t.received pkt.key ++ [pkt])) with
      | none => rfl
      | some b =>
        cases b with
        | true =>
          cases arrayOf (t.received pkt.key ++ [pkt]) 0 <;> rfl
        | false =>
          rw [reassemblyCancel_eq (r := ⟨true, false, pkt.key, _⟩) hi hfront]
          rfl

structure FedRight (t t' : Traced) (pkt : Pkt) : Prop where
  fed_iff : t'.st.fed ≠ t.st.fed ↔ ∃ payload, Tiles (t.received pkt.key ++ [pkt]) payload
  payload : ∀ payload, Tiles (t.received pkt.key ++ [pkt]) payload →
    ∃ d, t'.st.fed = t.st.fed ++ [d] ∧ d.payload = payload

theorem FedRight.of_not_tiles (hfed : t'.st.fed = t.st.fed)
    (h : ∀ payload, ¬ Tiles (t.received pkt.key ++ [pkt]) payload) : FedRight t t' pkt where
  fed_iff := iff_of_false (not_not_intro hfed) fun ⟨payload, ht⟩ => h payload ht
  payload payload ht := absurd ht (h payload)

theorem forall_mem_concat {P : Pkt → Prop} (hl : ∀ p ∈ l, P p) (hp : P pkt) :
    ∀ p ∈ l ++ [pkt], P p := by
  simpa [or_imp, forall_and] using ⟨hl, hp⟩

theorem Holds.sorted_concat (h : Holds cfg t) (hg : GoodFrag cfg t pkt) :
    (t.received pkt.key ++ [pkt]).Pairwise fun p q => p.fragmentOffset < q.fragmentOffset :=
  pairwise_append.mpr ⟨h.sorted _, pairwise_singleton _ _,
    fun p hp _ hq => mem_singleton.mp hq ▸ hg.order p hp⟩

theorem tracedStep_recv {s' : State} {v : Verdict}
    (hhandle : handleFragmentHdr cfg t.st pkt = some (s', v)) (hfed : s'.fed = t.st.fed)
    (hlen : (t.received pkt.key).length + 1 < cfg.maxPkt) :
    tracedStep cfg t (.recv pkt) =
      some ⟨s', update t.received pkt.key (t.received pkt.key ++ [pkt])⟩ := by
  rw [tracedStep, hhandle, Option.map_some]
  dsimp only
  rw [hfed, if_neg (by omega)]

theorem tracedStep_recv_last {s' : State} {v : Verdict}
    (hhandle : handleFragmentHdr cfg t.st pkt = some (s', v))
    (hlen : (t.received pkt.key).length + 1 = cfg.maxPkt) :
    tracedStep cfg t (.recv pkt) = some ⟨s', update t.received pkt.key []⟩ := by
  rw [tracedStep, hhandle, Option.map_some]
  dsimp only
  rw [if_pos (.inr hlen)]

section

variable (h : Holds cfg t) (hg : GoodFrag cfg t pkt)

include h hg

theorem recv_first (hnil : t.received pkt.key = []) :
    ∃ t', tracedStep cfg t (.recv pkt) = some t' ∧ Holds cfg t' ∧ FedRight t t' pkt := by
  have hmore : pkt.more = true := by
    by_contra hm
    exact (hg.last (by simpa using hm)).1 hnil
  obtain ⟨i, hi, hr, hlow, hhandle⟩ := handle_first h hg hnil
  have hother : ∀ j < cfg.maxCount, (t.st.reassembly j).InUse →
      (t.st.reassembly j).key ≠ pkt.key := by
    rintro j hj (hrj | hdj) hkey
    · exact (h.held j hj hrj).2.1 (hkey ▸ hnil)
    · exact absurd (hdj.symm.trans (hg.done j hj)) (by decide)
  refine ⟨_, tracedStep_recv hhandle rfl (hg.more hmore).1, ?_, ?_⟩
  · rw [hnil]
    refine h.of_slot hi rfl rfl (fun j hj _ hu => hother j hj hu) ?_ ?_ ?_ ?_ ?_ ?_
      (by simp [hmore]) (pairwise_singleton _ _)
    · intro hri
      exact absurd (hri.symm.trans hr) (by decide)
    · intro j hj _ hu
      exact (hother j hj hu).symm
    · intro _
      exact ⟨rfl, rfl, by simp, rfl⟩
    · intro hn
      exact absurd (.inl rfl) hn
    · intro hn
      exact nomatch hn
    · intro _
      exact ⟨hg.id, fun j hj => hother j (by omega) (.inl (hlow j hj))⟩
  · refine .of_not_tiles rfl fun payload => not_tiles_of_more ?_
    rw [hnil]
    simpa using hmore

theorem recv_more (hne : t.received pkt.key ≠ []) (hmore : pkt.more = true) :
    ∃ t', tracedStep cfg t (.recv pkt) = some t' ∧ Holds cfg t' ∧ FedRight t t' pkt := by
  obtain ⟨i, hi, hr, hkey, hhandle⟩ := handle_next h hg hne
  rw [if_pos hmore] at hhandle
  refine ⟨_, tracedStep_recv hhandle rfl (hg.more hmore).1, ?_, ?_⟩
  · refine h.of_slot hi rfl rfl ?_ (fun _ => hkey) ?_ ?_ ?_ ?_ ?_
      (forall_mem_concat (h.more _) hmore) ?_
    · intro j hj hji hu hk
      exact hji (h.key_inj hj hi hu (.inl hr) (hk.trans hkey.symm))
    · intro j hj hij hu
      exact hkey ▸ (h.front j hj hu).2 i hij
    · intro _
      exact ⟨rfl, rfl, by simp, rfl⟩
    · intro hn
      exact absurd (.inl rfl) hn
    · intro hn
      exact nomatch hn
    · intro _
      exact hkey ▸ h.front i hi (.inl hr)
    · exact h.sorted_concat hg
  · exact .of_not_tiles rfl fun payload => not_tiles_of_more (forall_mem_concat (h.more _) hmore)

theorem recv_last (hlast : pkt.more = false) :
    ∃ t', tracedStep cfg t (.recv pkt) = some t' ∧ Holds cfg t' ∧ FedRight t t' pkt := by
  obtain ⟨hne, hlen, htold⟩ := hg.last hlast
  obtain ⟨i, hi, hr, hkey, hhandle⟩ := handle_next h hg hne
  have htiles := fun payload => tiles_iff payload (h.more pkt.key) hlast (h.sorted_concat hg)
  rw [if_neg (by rw [hlast]; decide)] at hhandle
  obtain ⟨first, rest, hl⟩ := exists_cons_of_ne_nil hne
  have hfull : t.received pkt.key ++ [pkt] = first :: (rest ++ [pkt]) := by rw [hl]; rfl
  have hcount : (rest ++ [pkt]).length + 1 = cfg.maxPkt := by
    rw [← hlen, hl]
    simp
  rw [hl, head?_cons, ← hl, hfull] at htold
  -- the test says whether the fragments follow each other
  have hagree : (first.fragmentOffset = 0 ∧
      (first :: (rest ++ [pkt])).IsChain fun p q => q.fragmentOffset ≤ p.len) ↔
        Contiguous 0 ((first :: (rest ++ [pkt])).map Pkt.piece) :=
    (and_congr_right fun hfirst => isChain_iff_follows (htold (by simpa using hfirst))).trans
      (contiguous_iff 0 first (rest ++ [pkt])).symm
  rw [hfull, fragmentVerify_arrayOf hcount] at hhandle
  by_cases hc : Contiguous 0 ((first :: (rest ++ [pkt])).map Pkt.piece)
  · rw [decide_eq_true (hagree.mpr hc)] at hhandle
    refine ⟨_, tracedStep_recv_last hhandle hlen, ?_, ?_, ?_⟩
    · exact h.close hi (.inl hr) rfl (by rw [hkey]) rfl (.inl hkey.symm) nofun
        fun _ => rfl
    · refine iff_of_true (by simp) ⟨_, (htiles _).mpr ⟨hfull ▸ hc, rfl⟩⟩
    · intro payload ht
      refine ⟨_, rfl, ?_⟩
      rw [payload_reassemblePacket _ (by rw [length_cons, hcount]), ((htiles _).mp ht).2, hfull]
  · rw [decide_eq_false (mt hagree.mp hc)] at hhandle
    refine ⟨_, tracedStep_recv_last hhandle hlen, ?_, ?_⟩
    · exact h.close hi (.inl hr) rfl (by rw [hkey]) rfl (.inr rfl) nofun
        fun _ => rfl
    · refine .of_not_tiles rfl fun payload ht => hc ?_
      exact hfull ▸ ((htiles _).mp ht).1

theorem recv_step :
    ∃ t', tracedStep cfg t (.recv pkt) = some t' ∧ Holds cfg t' ∧ FedRight t t' pkt := by
  cases hm : pkt.more with
  | false => exact recv_last h hg hm
  | true =>
    by_cases hnil : t.received pkt.key = []
    · exact recv_first h hg hnil
    · exact recv_more h hg hnil hm

end

theorem holds_step (h : Holds cfg t) {a : Act} (hg : Good cfg t a)
    (hstep : tracedStep cfg t a = some t') : Holds cfg t' := by
  cases a with
  | recv pkt =>
    obtain ⟨u, hu, hholds, -⟩ := recv_step h hg
    exact Option.some.inj (hu.symm.trans hstep) ▸ hholds
  | expire i =>
    rw [tracedStep] at hstep
    split_ifs at hstep with hc
    cases hstep
    exact h.close hc.1 (.inl hc.2) rfl rfl rfl (.inl rfl) (fun _ => rfl) nofun
  | timeout i =>
    rw [tracedStep] at hstep
    split_ifs at hstep with hc
    cases hstep
    have hfront := (h.front i hc.1 (.inr hc.2)).2
    have hrem : (t.st.reassembly i).remaining = false := by
      refine Bool.eq_false_iff.mpr fun hr => ?_
      exact absurd ((h.held i hc.1 hr).1.symm.trans hc.2) (by decide)
    have hnil : t.received (t.st.reassembly i).key = [] := by
      refine h.unused _ fun j hj hr hkey => ?_
      obtain rfl := h.key_inj hj hc.1 (.inl hr) (.inr hc.2) hkey
      exact absurd (hr.symm.trans hrem) (by decide)
    rw [reassemblyCancel_eq (r := { t.st.reassembly i with due := false }) hc.1 hfront]
    refine h.close hc.1 (.inr hc.2) rfl ?_ rfl (.inr rfl) ?_ fun _ => rfl
    · rw [← hnil, update_eq_self]
    · intro hd
      rw [hrem] at hd
      exact nomatch hd

def fragOf (flag : BitVec 16) (n : Nat) : Pkt where
  key := ⟨7#32, 1#128, 2#128⟩
  header := replicate 40 0#8
  hdrPrev := 6
  nexthdr := 17#8
  flag := flag
  payload := replicate (n + 1) 1#8
  fixed_le := by simp
  dvd_header := by simp
  payload_ne := by simp

def afterFirst : Traced := (tracedStep ⟨1, 2⟩ start (.recv (fragOf 1#16 7))).getD start

theorem run_afterFirst : GuardedRun (tracedStep ⟨1, 2⟩) (Good ⟨1, 2⟩) start afterFirst := by
  have hfirst : GoodFrag ⟨1, 2⟩ start (fragOf 1#16 7) :=
    ⟨fun _ _ => rfl, by decide, ⟨0, by decide, nofun⟩, by simp [start],
      fun _ => ⟨by decide, fun h => absurd rfl h⟩, nofun⟩
  exact .single ⟨.recv (fragOf 1#16 7), hfirst, rfl⟩

theorem received_afterFirst : afterFirst.received (fragOf 8#16 4).key = [fragOf 1#16 7] := rfl

end Zephyr.Ipv6Reass
