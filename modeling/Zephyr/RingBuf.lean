import Zephyr.RingBuffer

/-! The ring buffer of `lib/ring_buffer` refines the queue of records: a record is a header word and
the words of its data, which may wrap around the end of the array at any word. -/

namespace Zephyr.SysRingBuf

open List Function

def eAgain : Int := 11
def eMsgSize : Int := 36

/-- `struct ring_buf`; the `size` words of `buf` lie in an address space of 32 bits. -/
structure RingBuf where
  head : BitVec 32
  tail : BitVec 32
  droppedPutCount : BitVec 32
  size : BitVec 32
  buf : Nat → BitVec 32
  mask : BitVec 32
  inMemory : 4 * size.toNat ≤ 2 ^ 32

/-- A record as it is put and got; the length of its data is a `u8_t`. -/
structure Item where
  type : BitVec 16
  value : BitVec 8
  data : List (BitVec 32)
  short : data.length < 2 ^ 8

def isPowerOfTwo (x : BitVec 32) : Bool := x ≠ 0#32 && x &&& (x - 1#32) = 0#32

def sysRingBufInit (size : BitVec 32) (data : Nat → BitVec 32) (h : 4 * size.toNat ≤ 2 ^ 32) :
    RingBuf where
  head := 0#32
  tail := 0#32
  droppedPutCount := 0#32
  size := size
  buf := data
  mask := if isPowerOfTwo size then size - 1#32 else 0#32
  inMemory := h

def sysRingBufDeclarePow2 (pow : Nat) (h : 4 * (1#32 <<< pow).toNat ≤ 2 ^ 32) : RingBuf where
  head := 0#32
  tail := 0#32
  droppedPutCount := 0#32
  size := 1#32 <<< pow
  buf := fun _ => 0#32
  mask := (1#32 <<< pow) - 1#32
  inMemory := h

def sysRingBufDeclareSize (size32 : BitVec 32) (h : 4 * size32.toNat ≤ 2 ^ 32) : RingBuf where
  head := 0#32
  tail := 0#32
  droppedPutCount := 0#32
  size := size32
  buf := fun _ => 0#32
  mask := 0#32
  inMemory := h

variable (w : BitVec 32) (b : RingBuf)

def sysRingBufIsEmpty : Bool := b.head = b.tail

def sysRingBufSpaceGet : BitVec 32 :=
  if sysRingBufIsEmpty b then b.size - 1#32
  else if b.tail < b.head then b.head - b.tail - 1#32
  else (b.size - b.tail) + b.head - 1#32

variable (type : BitVec 16)

def ringElement (length value : BitVec 8) : BitVec 32 :=
  type.setWidth 32 ||| length.setWidth 32 <<< 16 ||| value.setWidth 32 <<< 24

def elementType : BitVec 16 := w.extractLsb' 0 16

def elementLength : BitVec 8 := w.extractLsb' 16 8

def elementValue : BitVec 8 := w.extractLsb' 24 8

def index (x : BitVec 32) : BitVec 32 :=
  if b.mask ≠ 0#32 then x &&& b.mask else x % b.size

def storeWords (data : Nat → BitVec 32) (k : Nat) (buf : Nat → BitVec 32) : Nat → BitVec 32 :=
  (range k).foldl (fun buf i =>
    update buf (index b (BitVec.ofNat 32 i + b.tail + 1#32)).toNat (data i)) buf

def sysRingBufPut (value : BitVec 8) (data : Nat → BitVec 32) (size32 : BitVec 8) : RingBuf × Int :=
  if size32.setWidth 32 + 1#32 ≤ sysRingBufSpaceGet b then
    let buf := update b.buf b.tail.toNat (ringElement type size32 value)
    ({ b with
      buf := storeWords b data size32.toNat buf
      tail := index b (b.tail + size32.setWidth 32 + 1#32) }, 0)
  else ({ b with droppedPutCount := b.droppedPutCount + 1#32 }, -eMsgSize)

/-- What `sys_ring_buf_get` returns, and what it writes to `size32` and to the other areas. -/
structure Got where
  rc : Int
  size32 : BitVec 8
  item : Option Item

def sysRingBufGet (size32 : BitVec 8) : RingBuf × Got :=
  if sysRingBufIsEmpty b then (b, ⟨-eAgain, size32, none⟩)
  else
    let header := b.buf b.head.toNat
    let length := elementLength header
    if size32 < length then (b, ⟨-eMsgSize, length, none⟩)
    else
      ({ b with head := index b (b.head + length.setWidth 32 + 1#32) }, ⟨0, length, some {
          type := elementType header
          value := elementValue header
          data := (range length.toNat).map fun i =>
            b.buf (index b (BitVec.ofNat 32 i + b.head + 1#32)).toNat
          short := by
            rw [length_map, length_range]
            exact length.isLt }⟩)

inductive Op where
  | put (type : BitVec 16) (value : BitVec 8) (data : Nat → BitVec 32) (size32 : BitVec 8)
  | get (size32 : BitVec 8)

inductive Outcome where
  | put (rc : Int)
  | get (got : Got)

def step : Op → RingBuf × Outcome
  | .put type value data size32 => ((sysRingBufPut b type value data size32).1,
      .put (sysRingBufPut b type value data size32).2)
  | .get size32 => ((sysRingBufGet b size32).1, .get (sysRingBufGet b size32).2)

def putItem (value : BitVec 8) (data : Nat → BitVec 32) (size32 : BitVec 8) : Item where
  type := type
  value := value
  data := (range size32.toNat).map data
  short := by
    rw [length_map, length_range]
    exact size32.isLt

def words (q : List Item) : Nat := (q.map fun i => i.data.length + 1).sum

/-- What the ring buffer is for: a queue that holds records of `size - 1` words in all. -/
def queueStep (size : Nat) (q : List Item) : Op → List Item × Outcome
  | .put type value data size32 =>
    if size - 1 < words q + (size32.toNat + 1) then (q, .put (-eMsgSize))
    else (q ++ [putItem type value data size32], .put 0)
  | .get size32 =>
    match q with
    | [] => ([], .get ⟨-eAgain, size32, none⟩)
    | i :: rest =>
      if size32.toNat < i.data.length then
        (q, .get ⟨-eMsgSize, BitVec.ofNat 8 i.data.length, none⟩)
      else (rest, .get ⟨0, BitVec.ofNat 8 i.data.length, some i⟩)

def run {S : Type} (step : S → Op → S × Outcome) (s : S) (ops : List Op) :
    S × List (Op × Outcome) :=
  ops.foldl (fun r op => ((step r.1 op).1, r.2 ++ [(op, (step r.1 op).2)])) (s, [])

def accepted : Op × Outcome → Option Item
  | (.put type value data size32, .put rc) =>
    if rc = 0 then some (putItem type value data size32) else none
  | _ => none

def returned : Op × Outcome → Option Item
  | (_, .get got) => if got.rc = 0 then got.item else none
  | _ => none

variable {b : RingBuf} {q : List Item} {i : Item} {data : Nat → BitVec 32} {k : Nat} {x : BitVec 32}

inductive Fresh : RingBuf → Prop where
  | init (size data h) : Fresh (sysRingBufInit size data h)
  | declarePow2 (pow h) : Fresh (sysRingBufDeclarePow2 pow h)
  | declareSize (size32 h) : Fresh (sysRingBufDeclareSize size32 h)

structure Wf (b : RingBuf) : Prop where
  sizePos : 0 < b.size.toNat
  masked : b.mask = 0#32 ∨ ∃ k, b.size.toNat = 2 ^ k ∧ b.mask.toNat = 2 ^ k - 1

theorem Wf.toNat_index (h : Wf b) (x : BitVec 32) : (index b x).toNat = x.toNat % b.size.toNat := by
  unfold index
  split_ifs with hm
  · obtain ⟨k, hs, hk⟩ := h.masked.resolve_left hm
    rw [BitVec.toNat_and, hk, hs, Nat.and_two_pow_sub_one_eq_mod]
  · exact BitVec.toNat_umod

theorem Wf.toNat_index_add (h : Wf b) {n : Nat} (hx : x.toNat < b.size.toNat) (hn : n < 2 ^ 8) :
    (index b (BitVec.ofNat 32 n + x + 1#32)).toNat = (x.toNat + (n + 1)) % b.size.toNat := by
  have hmem := b.inMemory
  have hadd : (BitVec.ofNat 32 n + x + 1#32).toNat = x.toNat + (n + 1) := by
    simp only [BitVec.toNat_add, BitVec.toNat_ofNat]
    omega
  rw [h.toNat_index, hadd]

theorem Wf.toNat_index_advance (h : Wf b) (length : BitVec 8)
    (hx : x.toNat < b.size.toNat) : (index b (x + length.setWidth 32 + 1#32)).toNat =
      (x.toNat + (length.toNat + 1)) % b.size.toNat := by
  rw [BitVec.add_comm x, ← BitVec.ofNat_toNat]
  exact h.toNat_index_add hx length.isLt

def encode (i : Item) : List (BitVec 32) :=
  ringElement i.type (BitVec.ofNat 8 i.data.length) i.value :: i.data

structure Holds (b : RingBuf) (q : List Item) : Prop extends Wf b where
  head_lt : b.head.toNat < b.size.toNat
  tail_eq : b.tail.toNat = (b.head.toNat + words q) % b.size.toNat
  words_lt : words q < b.size.toNat
  contents : ringContents b.buf b.size.toNat b.head.toNat (words q) = q.flatMap encode

@[simp] theorem elementType_ringElement (type length value) :
    elementType (ringElement type length value) = type := by
  unfold elementType ringElement
  ext j hj
  simp [hj, Nat.lt_trans hj]

@[simp] theorem elementLength_ringElement (type length value) :
    elementLength (ringElement type length value) = length := by
  unfold elementLength ringElement
  ext j hj
  have hlow : 16 + j < 24 := by omega
  have hword : 16 + j < 32 := by omega
  simp [hlow, hword, hj, Nat.not_lt.mpr (Nat.le_add_right 16 j), BitVec.getLsbD_eq_getElem]

@[simp] theorem elementValue_ringElement (type length value) :
    elementValue (ringElement type length value) = value := by
  unfold elementValue ringElement
  ext j hj
  have hword : 24 + j < 32 := by omega
  have htype : type.getLsbD (24 + j) = false := BitVec.getLsbD_of_ge _ _ (by omega)
  have hlength : length.getLsbD (24 + j - 16) = false := BitVec.getLsbD_of_ge _ _ (by omega)
  simp [hword, htype, hlength, hj, Nat.not_lt.mpr (Nat.le_add_right 24 j),
    BitVec.getLsbD_eq_getElem]

@[simp] theorem words_nil : words [] = 0 := rfl

@[simp] theorem words_cons : words (i :: q) = i.data.length + 1 + words q := by simp [words]

@[simp] theorem words_append (q' : List Item) : words (q ++ q') = words q + words q' := by
  simp [words]

theorem Holds.isEmpty_iff (h : Holds b q) : sysRingBufIsEmpty b = true ↔ q = [] := by
  have hround : b.head = b.tail ↔ words q = 0 := by
    rw [← BitVec.toNat_inj, h.tail_eq]
    constructor
    · intro he
      have hcell : (b.head.toNat + 0) % b.size.toNat = (b.head.toNat + words q) % b.size.toNat := by
        rwa [Nat.add_zero, Nat.mod_eq_of_lt h.head_lt]
      exact (cell_inj hcell h.sizePos h.words_lt).symm
    · intro hw
      rw [hw, Nat.add_zero, Nat.mod_eq_of_lt h.head_lt]
  unfold sysRingBufIsEmpty
  rw [decide_eq_true_iff, hround]
  cases q with
  | nil => simp
  | cons i q => simp

theorem Holds.tail_cases (h : Holds b q) : b.tail.toNat = b.head.toNat + words q ∨
      b.tail.toNat + b.size.toNat = b.head.toNat + words q := by
  have hhead := h.head_lt
  have hwords := h.words_lt
  rw [h.tail_eq]
  rcases Nat.lt_or_ge (b.head.toNat + words q) b.size.toNat with hlt | hge
  · exact .inl (Nat.mod_eq_of_lt hlt)
  · rw [Nat.mod_eq_sub_mod hge, Nat.mod_eq_of_lt (by omega)]
    omega

theorem Holds.toNat_space (h : Holds b q) :
    (sysRingBufSpaceGet b).toNat = b.size.toNat - 1 - words q := by
  have hwords := h.words_lt
  have htail := h.tail_cases
  unfold sysRingBufSpaceGet
  split_ifs with he hlt
  · obtain rfl := h.isEmpty_iff.mp he
    simp only [words_nil, BitVec.toNat_sub, BitVec.toNat_ofNat]
    omega
  · rw [BitVec.lt_def] at hlt
    simp only [BitVec.toNat_sub, BitVec.toNat_ofNat]
    omega
  · rw [BitVec.lt_def] at hlt
    simp only [BitVec.toNat_sub, BitVec.toNat_add, BitVec.toNat_ofNat]
    omega

theorem ringContents_storeWords {buf : Nat → BitVec 32} {start used k : Nat} (h : Wf b)
    (htail : b.tail.toNat = (start + used) % b.size.toNat) (hk : k < 2 ^ 8)
    (hfree : used + 1 + k ≤ b.size.toNat) :
    ringContents (storeWords b data k buf) b.size.toNat start (used + 1 + k) =
      ringContents buf b.size.toNat start (used + 1) ++ (range k).map data := by
  have hlt : b.tail.toNat < b.size.toNat := htail ▸ Nat.mod_lt _ h.sizePos
  induction k with
  | zero => simp [storeWords]
  | succ k ih =>
    have hcell : (index b (BitVec.ofNat 32 k + b.tail + 1#32)).toNat =
        (start + (used + 1 + k)) % b.size.toNat := by
      rw [h.toNat_index_add hlt (by omega), htail, Nat.mod_add_mod]
      congr 1
      omega
    have hstore : storeWords b data (k + 1) buf = update (storeWords b data k buf)
        ((start + (used + 1 + k)) % b.size.toNat) (data k) := by
      rw [← hcell]
      simp [storeWords, range_succ]
    rw [hstore, ← Nat.add_assoc (used + 1), ringContents_concat (by omega),
      ih (by omega) (by omega), range_succ, map_append, map_singleton,
      append_assoc]

theorem Holds.put (h : Holds b q) (type : BitVec 16) (value : BitVec 8) (data : Nat → BitVec 32)
    (size32 : BitVec 8) :
    Holds (step b (.put type value data size32)).1
        (queueStep b.size.toNat q (.put type value data size32)).1 ∧
      (step b (.put type value data size32)).2 =
        (queueStep b.size.toNat q (.put type value data size32)).2 := by
  have hlen := size32.isLt
  have hneed : (size32.setWidth 32 + 1#32).toNat = size32.toNat + 1 := by
    simp only [BitVec.toNat_add, BitVec.toNat_setWidth, BitVec.toNat_ofNat]
    omega
  have hfits : size32.setWidth 32 + 1#32 ≤ sysRingBufSpaceGet b ↔
      ¬ b.size.toNat - 1 < words q + (size32.toNat + 1) := by
    have := h.words_lt
    rw [BitVec.le_def, hneed, h.toNat_space]
    omega
  by_cases hfit : size32.setWidth 32 + 1#32 ≤ sysRingBufSpaceGet b
  · have hroom := hfits.mp hfit
    have htail : b.tail.toNat < b.size.toNat := h.tail_eq ▸ Nat.mod_lt _ h.sizePos
    have hitem : words [putItem type value data size32] = size32.toNat + 1 := by
      simp [putItem]
    simp only [step, sysRingBufPut, queueStep, if_pos hfit, if_neg hroom]
    refine ⟨⟨⟨h.sizePos, h.masked⟩, h.head_lt, ?_, ?_, ?_⟩, trivial⟩
    · rw [h.toNat_index_advance size32 htail, h.tail_eq, words_append, hitem, Nat.mod_add_mod,
        Nat.add_assoc]
    · rw [words_append, hitem]
      dsimp only
      omega
    · rw [words_append, hitem, Nat.add_comm size32.toNat, ← Nat.add_assoc,
        ringContents_storeWords h.toWf h.tail_eq hlen (by omega), h.tail_eq,
        ringContents_concat h.words_lt, h.contents]
      simp [encode, putItem]
  · simp only [step, sysRingBufPut, queueStep, if_neg hfit, if_pos (not_not.mp (mt hfits.mpr hfit))]
    exact ⟨{ h with }, trivial⟩

theorem Holds.put_outcome (h : Holds b q) (type : BitVec 16) (value : BitVec 8)
    (data : Nat → BitVec 32) (size32 : BitVec 8) :
    Outcome.put (sysRingBufPut b type value data size32).2 =
      .put (if b.size.toNat - 1 < words q + (size32.toNat + 1) then -eMsgSize else 0) := by
  refine (h.put type value data size32).2.trans ?_
  simp only [queueStep]
  split_ifs <;> rfl

theorem Holds.contents_cons (h : Holds b (i :: q)) :
    b.buf b.head.toNat = ringElement i.type (BitVec.ofNat 8 i.data.length) i.value ∧
      ((range i.data.length).map fun j => b.buf ((b.head.toNat + (j + 1)) % b.size.toNat)) =
        i.data ∧
      ringContents b.buf b.size.toNat ((b.head.toNat + (i.data.length + 1)) % b.size.toNat)
        (words q) = q.flatMap encode := by
  have hc := h.contents
  rw [words_cons, ringContents_add] at hc
  obtain ⟨hitem, hrest⟩ := append_inj hc (by simp [encode])
  rw [ringContents, range_succ_eq_map, map_cons, map_map, Nat.add_zero,
    Nat.mod_eq_of_lt h.head_lt] at hitem
  exact ⟨(cons.inj hitem).1, (cons.inj hitem).2, hrest⟩

theorem Holds.not_isEmpty (h : Holds b (i :: q)) : ¬ sysRingBufIsEmpty b = true := by
  rw [h.isEmpty_iff]
  exact cons_ne_nil i q

theorem Item.toNat_length (i : Item) : (BitVec.ofNat 8 i.data.length).toNat = i.data.length :=
  Nat.mod_eq_of_lt i.short

theorem Holds.get_short {size32 : BitVec 8} (h : Holds b (i :: q))
    (hs : size32.toNat < i.data.length) :
    sysRingBufGet b size32 = (b, ⟨-eMsgSize, BitVec.ofNat 8 i.data.length, none⟩) := by
  have hlt : size32 < BitVec.ofNat 8 i.data.length := by
    rwa [BitVec.lt_def, i.toNat_length]
  simp only [sysRingBufGet, if_neg h.not_isEmpty, h.contents_cons.1, elementLength_ringElement,
    if_pos hlt]

theorem Holds.get (h : Holds b q) (size32 : BitVec 8) :
    Holds (step b (.get size32)).1 (queueStep b.size.toNat q (.get size32)).1 ∧
      (step b (.get size32)).2 = (queueStep b.size.toNat q (.get size32)).2 := by
  cases q with
  | nil =>
    simp only [step, sysRingBufGet, queueStep, if_pos (h.isEmpty_iff.mpr rfl)]
    exact ⟨h, trivial⟩
  | cons i rest =>
    by_cases hs : size32.toNat < i.data.length
    · simp only [step, queueStep, h.get_short hs, if_pos hs]
      exact ⟨h, trivial⟩
    · obtain ⟨hheader, hdata, hrest⟩ := h.contents_cons
      have hge : ¬ size32 < BitVec.ofNat 8 i.data.length := by
        rwa [BitVec.lt_def, i.toNat_length]
      have hwords := h.words_lt
      have hhead := h.toNat_index_advance (BitVec.ofNat 8 i.data.length) h.head_lt
      rw [i.toNat_length] at hhead
      rw [words_cons] at hwords
      have hword : ∀ j ∈ range i.data.length,
          b.buf (index b (BitVec.ofNat 32 j + b.head + 1#32)).toNat =
            b.buf ((b.head.toNat + (j + 1)) % b.size.toNat) := by
        intro j hj
        rw [h.toNat_index_add h.head_lt ((mem_range.mp hj).trans i.short)]
      simp only [step, sysRingBufGet, queueStep, if_neg h.not_isEmpty, hheader,
        elementLength_ringElement, elementType_ringElement, elementValue_ringElement, if_neg hge,
        if_neg hs, i.toNat_length, map_congr_left hword, hdata]
      refine ⟨⟨⟨h.sizePos, h.masked⟩, ?_, ?_, ?_, ?_⟩, trivial⟩
      · rw [hhead]
        exact Nat.mod_lt _ h.sizePos
      · rw [hhead, Nat.mod_add_mod, h.tail_eq, words_cons, Nat.add_assoc b.head.toNat]
      · dsimp only
        omega
      · rw [hhead, hrest]

theorem Holds.step (h : Holds b q) (op : Op) : Holds (step b op).1 (queueStep b.size.toNat q op).1 ∧
      (SysRingBuf.step b op).2 = (queueStep b.size.toNat q op).2 := by
  cases op with
  | put type value data size32 => exact h.put type value data size32
  | get size32 => exact h.get size32

theorem step_config (op : Op) : (step b op).1.size = b.size ∧ (step b op).1.mask = b.mask := by
  cases op with
  | put type value data size32 =>
    simp only [step, sysRingBufPut]
    split_ifs <;> exact ⟨rfl, rfl⟩
  | get size32 =>
    simp only [step, sysRingBufGet]
    split_ifs <;> exact ⟨rfl, rfl⟩

theorem run_concat {S : Type} (step : S → Op → S × Outcome) (s : S) (ops : List Op) (op : Op) :
    run step s (ops ++ [op]) = ((step (run step s ops).1 op).1,
      (run step s ops).2 ++ [(op, (step (run step s ops).1 op).2)]) := by
  simp [run]

theorem run_config (ops : List Op) :
    (run step b ops).1.size = b.size ∧ (run step b ops).1.mask = b.mask := by
  induction ops using reverseRecOn with
  | nil => exact ⟨rfl, rfl⟩
  | append_singleton ops op ih =>
    rw [run_concat]
    exact ⟨(step_config op).1.trans ih.1, (step_config op).2.trans ih.2⟩

theorem Holds.run (h : Holds b q) (ops : List Op) :
    Holds (run SysRingBuf.step b ops).1 (run (queueStep b.size.toNat) q ops).1 ∧
      (SysRingBuf.run SysRingBuf.step b ops).2 =
        (SysRingBuf.run (queueStep b.size.toNat) q ops).2 := by
  induction ops using reverseRecOn with
  | nil => exact ⟨h, rfl⟩
  | append_singleton ops op ih =>
    have hstep := ih.1.step op
    rw [(run_config ops).1] at hstep
    simp only [run_concat]
    exact ⟨hstep.1, by rw [ih.2, hstep.2]⟩

theorem queueStep_fifo (size : Nat) (op : Op) :
    q ++ (accepted (op, (queueStep size q op).2)).toList =
      (returned (op, (queueStep size q op).2)).toList ++ (queueStep size q op).1 := by
  cases op with
  | put type value data size32 =>
    simp only [queueStep]
    split_ifs with hfull
    · simp [accepted, returned, eMsgSize]
    · simp [accepted, returned]
  | get size32 =>
    cases q with
    | nil => simp [queueStep, accepted, returned]
    | cons i rest =>
      simp only [queueStep]
      split_ifs with hshort
      · simp [accepted, returned]
      · simp [accepted, returned]

theorem filterMap_single {A B : Type} (f : A → Option B) (a : A) :
    [a].filterMap f = (f a).toList := by
  cases hfa : f a <;> simp [hfa]

theorem queue_fifo (size : Nat) (ops : List Op) :
    (run (queueStep size) [] ops).2.filterMap accepted =
      (run (queueStep size) [] ops).2.filterMap returned ++ (run (queueStep size) [] ops).1 := by
  induction ops using reverseRecOn with
  | nil => rfl
  | append_singleton ops op ih =>
    have hstep := queueStep_fifo (q := (run (queueStep size) [] ops).1) size op
    simp only [run_concat, filterMap_append, ih, append_assoc, filterMap_single, hstep]

@[simps] def withMask (b : RingBuf) (mask : BitVec 32) : RingBuf := { b with mask := mask }

theorem withMask_of_mask {mask : BitVec 32} (h : b.mask = mask) : withMask b mask = b := by
  subst h
  rfl

theorem index_withMask (hk : b.size.toNat = 2 ^ k) :
    index (withMask b (b.size - 1#32)) = index (withMask b 0#32) := by
  have hpos : 0 < b.size.toNat := hk ▸ Nat.two_pow_pos k
  have hmask : (b.size - 1#32).toNat = 2 ^ k - 1 := by
    simp only [BitVec.toNat_sub, BitVec.toNat_ofNat]
    omega
  have hmasked : Wf (withMask b (b.size - 1#32)) := ⟨hpos, .inr ⟨k, hk, hmask⟩⟩
  have hmod : Wf (withMask b 0#32) := ⟨hpos, .inl rfl⟩
  funext x
  exact BitVec.eq_of_toNat_eq ((hmasked.toNat_index x).trans (hmod.toNat_index x).symm)

theorem step_withMask (hk : b.size.toNat = 2 ^ k) (op : Op) : step (withMask b (b.size - 1#32)) op =
      (withMask (step (withMask b 0#32) op).1 (b.size - 1#32), (step (withMask b 0#32) op).2) := by
  have hspace : ∀ m, sysRingBufSpaceGet (withMask b m) = sysRingBufSpaceGet b := fun _ => rfl
  have hempty : ∀ m, sysRingBufIsEmpty (withMask b m) = sysRingBufIsEmpty b := fun _ => rfl
  cases op with
  | put type value data size32 =>
    simp only [step, sysRingBufPut, storeWords, index_withMask hk, hspace]
    split_ifs <;> rfl
  | get size32 =>
    simp only [step, sysRingBufGet, index_withMask hk, hempty, withMask_buf, withMask_head]
    split_ifs <;> rfl

theorem run_withMask (hk : b.size.toNat = 2 ^ k) (ops : List Op) :
    run step (withMask b (b.size - 1#32)) ops =
      (withMask (run step (withMask b 0#32) ops).1 (b.size - 1#32),
        (run step (withMask b 0#32) ops).2) := by
  induction ops using reverseRecOn with
  | nil => rfl
  | append_singleton ops op ih =>
    obtain ⟨hsize, hmask⟩ := run_config (b := withMask b 0#32) ops
    have hstep := step_withMask (hsize ▸ hk) op
    rw [withMask_mask] at hmask
    rw [withMask_of_mask hmask, hsize, withMask_size] at hstep
    rw [run_concat, run_concat, ih, hstep]

theorem eq_two_pow_of_and_pred {n : Nat} (hn : n ≠ 0) (h : n &&& (n - 1) = 0) : ∃ k, n = 2 ^ k := by
  have hlog := Nat.lt_log2_self (n := n)
  refine ⟨n.log2, Nat.le_antisymm ?_ (Nat.log2_self_le hn)⟩
  by_contra hlt
  -- the highest bit would be set in the predecessor too
  have hbit : (n &&& (n - 1)).testBit n.log2 = true := by
    rw [Nat.testBit_and, Nat.testBit_of_two_pow_le_and_two_pow_add_one_gt (by omega) hlog,
      Nat.testBit_of_two_pow_le_and_two_pow_add_one_gt (by omega) (by omega), Bool.and_true]
  rw [h, Nat.zero_testBit] at hbit
  exact Bool.false_ne_true hbit

theorem Fresh.wf (hb : Fresh b) (hsize : 1 ≤ b.size.toNat) : Wf b := by
  have hpred : ∀ x : BitVec 32, 1 ≤ x.toNat → (x - 1#32).toNat = x.toNat - 1 := by
    intro x hx
    simp only [BitVec.toNat_sub, BitVec.toNat_ofNat]
    omega
  refine ⟨hsize, ?_⟩
  cases hb with
  | init size data h =>
    by_cases hp : isPowerOfTwo size = true
    · simp only [isPowerOfTwo, Bool.and_eq_true, decide_eq_true_iff] at hp
      have hand := congrArg BitVec.toNat hp.2
      rw [BitVec.toNat_and, hpred size hsize] at hand
      obtain ⟨k, hk⟩ := eq_two_pow_of_and_pred (Nat.one_le_iff_ne_zero.mp hsize) hand
      have hmask : (sysRingBufInit size data h).mask = size - 1#32 :=
        if_pos (by simpa [isPowerOfTwo] using hp)
      refine .inr ⟨k, hk, ?_⟩
      rw [hmask, hpred size hsize]
      exact congrArg (· - 1) hk
    · exact .inl (if_neg hp)
  | declarePow2 pow h =>
    have hshift : (1#32 <<< pow).toNat = 2 ^ pow % 2 ^ 32 := by
      rw [BitVec.toNat_shiftLeft, Nat.shiftLeft_eq]
      simp
    have hpow : pow < 32 := by
      by_contra hge
      have hzero := hshift.trans (Nat.mod_eq_zero_of_dvd (Nat.pow_dvd_pow 2 (Nat.not_lt.mp hge)))
      exact absurd hzero (Nat.one_le_iff_ne_zero.mp hsize)
    have hsize' : (1#32 <<< pow).toNat = 2 ^ pow :=
      hshift.trans (Nat.mod_eq_of_lt (Nat.pow_lt_pow_right (by decide) hpow))
    exact .inr ⟨pow, hsize', (hpred _ hsize).trans (congrArg (· - 1) hsize')⟩
  | declareSize size32 h => exact .inl rfl

theorem Fresh.holds (hb : Fresh b) (hsize : 1 ≤ b.size.toNat) : Holds b [] := by
  have hends : b.head = 0#32 ∧ b.tail = 0#32 := by
    cases hb <;> exact ⟨rfl, rfl⟩
  refine ⟨hb.wf hsize, ?_, ?_, hsize, rfl⟩
  · rw [hends.1]
    exact hsize
  · rw [hends.1, hends.2]
    exact (Nat.zero_mod _).symm

/-- The buffer is the queue of records of `size - 1` words: calls have the same outcomes, so gets
return what was put, in order, and the mask changes nothing. -/
theorem ring_buf_refines_queue (hb : Fresh b) (hsize : 1 ≤ b.size.toNat) (ops : List Op) :
    let r := run step b ops
    let q := (run (queueStep b.size.toNat) [] ops).1
    r.2 = (run (queueStep b.size.toNat) [] ops).2 ∧
      r.2.filterMap accepted = r.2.filterMap returned ++ q ∧
      (∀ type value data size32, (sysRingBufPut r.1 type value data size32).2 = -eMsgSize ↔
        b.size.toNat - 1 < words q + (size32.toNat + 1)) ∧
      (∀ size32, ∀ i ∈ q.head?, size32.toNat < i.data.length →
        sysRingBufGet r.1 size32 = (r.1, ⟨-eMsgSize, BitVec.ofNat 8 i.data.length, none⟩)) ∧
      ∀ k, b.size.toNat = 2 ^ k → run step (withMask b (b.size - 1#32)) ops =
        (withMask (run step (withMask b 0#32) ops).1 (b.size - 1#32),
          (run step (withMask b 0#32) ops).2) := by
  obtain ⟨hold, hout⟩ := (hb.holds hsize).run ops
  refine ⟨hout, ?_, ?_, ?_, fun k hk => run_withMask hk ops⟩
  · rw [hout]
    exact queue_fifo b.size.toNat ops
  · intro type value data size32
    have hput := Outcome.put.inj (hold.put_outcome type value data size32)
    rw [hput, (run_config ops).1]
    split_ifs with hfull
    · exact iff_of_true rfl hfull
    · exact iff_of_false (by decide) hfull
  · intro size32 i hi hs
    obtain ⟨_, hq⟩ := head?_eq_some_iff.mp hi
    rw [hq] at hold
    exact hold.get_short hs

def ring4 : RingBuf := sysRingBufInit 4#32 (fun _ => 0#32) (by decide)

def ring4Ops : List Op :=
  [.put 7#16 1#8 (fun _ => 9#32) 1#8, .put 7#16 2#8 (fun _ => 5#32) 1#8,
    .put 7#16 3#8 (fun _ => 5#32) 0#8, .get 0#8, .get 1#8]

theorem ring_buf_refines_queue_ring4 : 1 ≤ ring4.size.toNat ∧
    ((run step ring4 ring4Ops).2.filterMap returned).length = 1 ∧
    (run step ring4 ring4Ops).2.filterMap accepted =
      (run step ring4 ring4Ops).2.filterMap returned ++ (run (queueStep 4) [] ring4Ops).1 :=
  ⟨by decide, by decide, (ring_buf_refines_queue (.init _ _ _) (by decide) ring4Ops).2.1⟩

end Zephyr.SysRingBuf
