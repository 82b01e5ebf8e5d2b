import Mathlib

/-! The buffer chain of a network packet, the list of the data of its buffers, which have the same
room. Reading from a position on and writing to the end do not depend on where the bytes are cut,
as long as no buffer is empty. -/

namespace Zephyr.NetPkt

open List Option

variable {A : Type*} {size : Nat} {frag : List A} {rest frags : List (List A)}

/-- The loop of `net_pkt_compact`, at a fragment: data of the next one is moved over as long as
there is room, and a last fragment without data is removed. -/
def compactFrom (size : Nat) (frag : List A) : List (List A) → List (List A)
  | [] => if frag.isEmpty then [] else [frag]
  | next :: rest =>
    let tailroom := size - frag.length
    let frag' := frag ++ next.take tailroom
    if frag'.length < size then compactFrom size frag' rest
    else frag' :: compactFrom size (next.drop tailroom) rest

def compact (size : Nat) : List (List A) → List (List A)
  | [] => []
  | frag :: rest => compactFrom size frag rest

def Compacted (size : Nat) : List (List A) → Prop
  | [] => True
  | [frag] => frag ≠ [] ∧ frag.length ≤ size
  | frag :: next :: rest => frag.length = size ∧ frag ≠ [] ∧ Compacted size (next :: rest)

theorem take_tailroom {next : List A} (hfrag : frag.length ≤ size)
    (h : (frag ++ next.take (size - frag.length)).length < size) :
    next.take (size - frag.length) = next := by
  rw [length_append, length_take] at h
  exact take_of_length_le (by omega)

theorem compactFrom_flatten (hfrag : frag.length ≤ size) (hrest : ∀ f ∈ rest, f.length ≤ size) :
    (compactFrom size frag rest).flatten = frag ++ rest.flatten := by
  induction rest generalizing frag with
  | nil => cases frag <;> simp [compactFrom]
  | cons next rest ih =>
    rw [forall_mem_cons] at hrest
    simp only [compactFrom]
    split
    · next hlt =>
      rw [ih (Nat.le_of_lt hlt) hrest.2, take_tailroom hfrag hlt, flatten_cons, append_assoc]
    · rw [flatten_cons, ih (by rw [length_drop]; omega) hrest.2, flatten_cons,
        append_assoc, ← append_assoc (take _ _), take_append_drop]

theorem compactFrom_head (hne : frag ≠ []) :
    ∃ more rest', compactFrom size frag rest = (frag ++ more) :: rest' := by
  induction rest generalizing frag with
  | nil => exact ⟨[], [], by simp [compactFrom, hne]⟩
  | cons next rest ih =>
    simp only [compactFrom]
    split
    · have hne' : frag ++ next.take (size - frag.length) ≠ [] := by simp [hne]
      obtain ⟨_, rest', h⟩ := ih hne'
      exact ⟨_, rest', h.trans (by rw [append_assoc])⟩
    · exact ⟨_, _, rfl⟩

theorem compact_cons (hne : frag ≠ []) (h : ∀ f ∈ frag :: rest, f.length ≤ size) :
    ∃ more rest', compact size (frag :: rest) = (frag ++ more) :: rest' ∧
      more ++ rest'.flatten = rest.flatten := by
  rw [forall_mem_cons] at h
  obtain ⟨more, rest', hcomp⟩ : ∃ more rest', compactFrom size frag rest = (frag ++ more) :: rest' :=
    compactFrom_head hne
  have hflat := compactFrom_flatten h.1 h.2
  rw [hcomp, flatten_cons, append_assoc, append_right_inj] at hflat
  exact ⟨more, rest', hcomp, hflat⟩

theorem compacted_compactFrom (hsize : 0 < size) (hfrag : frag.length ≤ size)
    (hrest : ∀ f ∈ rest, f.length ≤ size) : Compacted size (compactFrom size frag rest) := by
  induction rest generalizing frag with
  | nil =>
    cases frag with
    | nil => trivial
    | cons a frag => exact ⟨by simp, hfrag⟩
  | cons next rest ih =>
    rw [forall_mem_cons] at hrest
    simp only [compactFrom]
    split
    · next hlt => exact ih (Nat.le_of_lt hlt) hrest.2
    · next hge =>
      have hfull : (frag ++ next.take (size - frag.length)).length = size := by
        rw [length_append, length_take] at hge ⊢
        omega
      have hne : frag ++ next.take (size - frag.length) ≠ [] := by
        rintro heq
        rw [heq, length_nil] at hfull
        omega
      have hle : (next.drop (size - frag.length)).length ≤ size := by
        rw [length_drop]
        omega
      have htail := ih hle hrest.2
      cases hcomp : compactFrom size (next.drop (size - frag.length)) rest with
      | nil => exact ⟨hne, Nat.le_of_eq hfull⟩
      | cons f fs => exact ⟨hfull, hne, hcomp ▸ htail⟩

theorem compacted_compact (hsize : 0 < size) (h : ∀ f ∈ frags, f.length ≤ size) :
    Compacted size (compact size frags) := by
  cases frags with
  | nil => trivial
  | cons frag rest =>
    rw [forall_mem_cons] at h
    exact compacted_compactFrom hsize h.1 h.2

theorem Compacted.length_le (h : Compacted size frags) : ∀ f ∈ frags, f.length ≤ size := by
  induction frags with
  | nil => simp
  | cons frag rest ih =>
    cases rest with
    | nil => simpa using h.2
    | cons next rest => exact forall_mem_cons.mpr ⟨Nat.le_of_eq h.1, ih h.2.2⟩

/-- A buffer of the chain, with room for `size` bytes. -/
structure Frag (A : Type*) where
  id : Nat
  size : Nat
  data : List A
  fits : data.length ≤ size
  room : 0 < size

/-- The data of the next buffer that is moved over, and what stays there. -/
def Frag.push (frag next : Frag A) : Frag A :=
  { frag with
    data := frag.data ++ next.data.take (frag.size - frag.data.length)
    fits := by
      have := frag.fits
      rw [length_append, length_take]
      omega }

def Frag.pull (frag next : Frag A) : Frag A :=
  { next with
    data := next.data.drop (frag.size - frag.data.length)
    fits := by
      have := next.fits
      rw [length_drop]
      omega }

/-- The chain and the buffers that have been released. -/
def compactFrags (frag : Frag A) : List (Frag A) → List (Frag A) × List Nat
  | [] => if frag.data.isEmpty then ([], [frag.id]) else ([frag], [])
  | next :: rest =>
    if (frag.push next).data.length < frag.size then
      let r := compactFrags (frag.push next) rest
      (r.1, next.id :: r.2)
    else
      let r := compactFrags (frag.pull next) rest
      (frag.push next :: r.1, r.2)

def netPktCompact : List (Frag A) → List (Frag A) × List Nat
  | [] => ([], [])
  | frag :: rest => compactFrags frag rest

structure CompactedTo (frags : List (Frag A)) (r : List (Frag A) × List Nat) : Prop where
  data : (r.1.map Frag.data).flatten = (frags.map Frag.data).flatten
  full : ∀ f ∈ r.1.dropLast, f.data.length = f.size
  ne : ∀ f ∈ r.1, f.data ≠ []
  released : (r.1.map Frag.id ++ r.2).Perm (frags.map Frag.id)

theorem compactFrags_right (frag : Frag A) (rest : List (Frag A)) :
    CompactedTo (frag :: rest) (compactFrags frag rest) := by
  induction rest generalizing frag with
  | nil =>
    rw [compactFrags]
    split
    · next hempty => exact ⟨by simp [isEmpty_iff.mp hempty], nofun, nofun, .refl _⟩
    · next hne => exact ⟨rfl, nofun, by simpa using hne, .refl _⟩
  | cons next rest ih =>
    have hfits := (frag.push next).fits
    simp only [compactFrags]
    split
    · next hlt =>
      obtain ⟨hdata, hfull, hne, hperm⟩ := ih (frag.push next)
      refine ⟨?_, hfull, hne, perm_middle.trans ((hperm.cons next.id).trans (.swap ..))⟩
      have hmove := take_tailroom frag.fits hlt
      rw [hdata]
      simp [Frag.push, hmove]
    · next hge =>
      obtain ⟨hdata, hfull, hne, hperm⟩ := ih (frag.pull next)
      have hlen : (frag.push next).data.length = (frag.push next).size :=
        Nat.le_antisymm hfits (Nat.not_lt.mp hge)
      refine ⟨?_, ?_, ?_, hperm.cons frag.id⟩
      · rw [map_cons, flatten_cons, hdata]
        simp only [map_cons, flatten_cons, Frag.push, Frag.pull, append_assoc]
        rw [← append_assoc (take _ _), take_append_drop]
      · intro f hf
        cases hr : (compactFrags (frag.pull next) rest).1 with
        | nil =>
          rw [hr] at hf
          cases hf
        | cons g gs =>
          rw [hr] at hf hfull
          exact (mem_cons.mp hf).elim (fun heq => heq ▸ hlen) (hfull f)
      · refine forall_mem_cons.mpr ⟨?_, hne⟩
        rw [← length_pos_iff, hlen]
        exact frag.room

/-- Compaction keeps the bytes, fills every buffer but the last, leaves none empty, and each buffer
of the chain is kept or released, once. -/
theorem netPktCompact_right (frags : List (Frag A)) : CompactedTo frags (netPktCompact frags) := by
  cases frags with
  | nil => exact ⟨rfl, nofun, nofun, .refl _⟩
  | cons frag rest => exact compactFrags_right frag rest

variable {avail n : Nat} {data bytes x y : List A}

structure Cursor (A : Type*) where
  frags : List (List A)
  pos : Nat

def Cursor.error : Cursor A := ⟨[], 0xffff⟩

def adjustOffset : List (List A) → Nat → Option (Cursor A)
  | [], _ => none
  | frag :: rest, offset =>
    if offset < frag.length then some ⟨frag :: rest, offset⟩
    else adjustOffset rest (offset - frag.length)

/-- `net_frag_read_byte`. Behind the end of a buffer there is `junk`. -/
def fragReadByte (junk : A) (frag : List A) (rest : List (List A)) (offset : Nat) : Cursor A × A :=
  (if frag.length ≤ offset + 1 then ⟨rest, 0⟩ else ⟨frag :: rest, offset + 1⟩,
    frag.getD offset junk)

def fragReadLoop (junk : A) : Nat → Cursor A → Cursor A × List A
  | 0, c => (c, [])
  | _ + 1, ⟨[], pos⟩ => (⟨[], pos⟩, [])
  | n + 1, ⟨frag :: rest, pos⟩ =>
    let r := fragReadByte junk frag rest pos
    if r.1.frags.isEmpty && n != 0 then (.error, [r.2])
    else
      let s := fragReadLoop junk n r.1
      (s.1, r.2 :: s.2)

def fragRead (junk : A) (c : Cursor A) (len : Nat) : Cursor A × List A :=
  match adjustOffset c.frags c.pos with
  | none => (.error, [])
  | some c => fragReadLoop junk len c

structure Cursor.At (c : Cursor A) (bytes : List A) : Prop where
  ne : ∀ f ∈ c.frags, f ≠ []
  pos : c.pos < (c.frags.headD []).length ∨ c.frags = [] ∧ c.pos = 0
  bytes : c.frags.flatten.drop c.pos = bytes

theorem at_start (h : ∀ f ∈ frags, f ≠ []) : (Cursor.mk frags 0).At frags.flatten where
  ne := h
  pos := by
    cases frags with
    | nil => exact .inr ⟨rfl, rfl⟩
    | cons frag rest => exact .inl (length_pos_of_ne_nil (h frag mem_cons_self))
  bytes := rfl

variable {c : Cursor A}

theorem Cursor.At.frags_nil_iff (h : c.At bytes) : c.frags = [] ↔ bytes = [] := by
  obtain ⟨frags, pos⟩ := c
  rw [← h.bytes]
  cases frags with
  | nil => simp
  | cons frag rest =>
    have hlt : pos < frag.length := by simpa using h.pos
    exact iff_of_false (cons_ne_nil _ _) (ne_nil_of_length_pos (by simp; omega))

theorem Cursor.At.frags_ne (h : c.At bytes) (hne : bytes ≠ []) : c.frags ≠ [] :=
  mt h.frags_nil_iff.mp hne

theorem Cursor.At.readByte {frag : List A} {rest : List (List A)} {pos : Nat} {b : A}
    (h : (Cursor.mk (frag :: rest) pos).At (b :: bytes)) (junk : A) :
    (fragReadByte junk frag rest pos).2 = b ∧ (fragReadByte junk frag rest pos).1.At bytes := by
  have hpos : pos < frag.length := by
    rcases h.pos with hlt | ⟨hnil, -⟩
    · exact hlt
    · cases hnil
  have hbytes : frag[pos] :: (frag.drop (pos + 1) ++ rest.flatten) = b :: bytes := by
    have := h.bytes
    rwa [flatten_cons, drop_append_of_le_length (Nat.le_of_lt hpos), drop_eq_getElem_cons hpos] at this
  obtain ⟨hb, hrest⟩ := cons.inj hbytes
  have hget : frag.getD pos junk = b := by
    rw [getD_eq_getElem?_getD, getElem?_eq_getElem hpos, getD_some, hb]
  refine ⟨hget, ?_⟩
  rw [fragReadByte]
  split
  · next hend =>
    have hstart := at_start fun f hf => h.ne f (mem_cons_of_mem frag hf)
    rwa [← hrest, drop_eq_nil_of_le hend]
  · next hend =>
    refine ⟨h.ne, .inl (by simpa using hend), ?_⟩
    rw [← hrest]
    exact drop_append_of_le_length (show pos + 1 ≤ frag.length by omega)

theorem Cursor.At.readLoop (h : c.At bytes) (junk : A) (n : Nat) :
    (n ≤ bytes.length → ∃ c', fragReadLoop junk n c = (c', bytes.take n) ∧ c'.At (bytes.drop n)) ∧
    (bytes ≠ [] → bytes.length < n → (fragReadLoop junk n c).1 = .error) := by
  induction n generalizing c bytes with
  | zero => exact ⟨fun _ => ⟨c, rfl, h⟩, fun _ hn => nomatch hn⟩
  | succ n ih =>
    cases bytes with
    | nil => exact ⟨nofun, fun hne => absurd rfl hne⟩
    | cons b bytes =>
      obtain ⟨frag, rest, hfrags⟩ :=
        exists_cons_of_ne_nil (h.frags_ne (cons_ne_nil b bytes))
      obtain ⟨frags, pos⟩ := c
      obtain rfl : frags = frag :: rest := hfrags
      obtain ⟨hb, hat⟩ := h.readByte junk
      obtain ⟨hread, hshort⟩ := ih hat
      -- while there is something left to read the chain has not ended
      have hend : ((fragReadByte junk frag rest pos).1.frags.isEmpty && n != 0) = true ↔
          bytes = [] ∧ n ≠ 0 := by
        rw [Bool.and_eq_true, List.isEmpty_iff, bne_iff_ne, hat.frags_nil_iff]
      simp only [fragReadLoop, hend, length_cons]
      refine ⟨fun hn => ?_, fun _ hn => ?_⟩
      · obtain ⟨c', hloop, hat'⟩ := hread (by omega)
        have hgo : ¬ (bytes = [] ∧ n ≠ 0) := by
          rintro ⟨rfl, hn'⟩
          exact hn' (Nat.le_zero.mp (Nat.le_of_succ_le_succ hn))
        rw [if_neg hgo, hloop, hb]
        exact ⟨c', rfl, hat'⟩
      · split
        · rfl
        · next hgo => exact hshort (fun hnil => hgo ⟨hnil, by omega⟩) (by omega)

theorem Cursor.At.read (h : c.At bytes) (junk : A) (hne : bytes ≠ []) (hn : n ≤ bytes.length) :
    ∃ c', fragRead junk c n = (c', bytes.take n) ∧ c'.At (bytes.drop n) := by
  obtain ⟨_, _, hfrags⟩ := exists_cons_of_ne_nil (h.frags_ne hne)
  have hadjust : adjustOffset c.frags c.pos = some c := by
    have hpos := h.pos
    rw [hfrags] at hpos ⊢
    rcases hpos with hlt | ⟨hnil, -⟩
    · rw [headD_cons] at hlt
      rw [adjustOffset, if_pos hlt, ← hfrags]
    · cases hnil
  rw [fragRead, hadjust]
  exact (h.readLoop junk n).1 hn

theorem Cursor.At.read_append (h : c.At (x ++ y)) (junk : A) (hne : x ++ y ≠ []) :
    ∃ c', fragRead junk c x.length = (c', x) ∧ c'.At y := by
  obtain ⟨c', hread, hat⟩ := h.read junk hne (n := x.length) (by simp)
  rw [take_left] at hread
  rw [drop_left] at hat
  exact ⟨c', hread, hat⟩

/-- What a read finds in a buffer: an empty one counts as a byte of which nothing is known. -/
def bufCells : List A → List (Option A)
  | [] => [none]
  | b :: frag => (b :: frag).map some

def Cursor.cells (c : Cursor A) : Cursor (Option A) := ⟨c.frags.map bufCells, c.pos⟩

variable {cells : List (Option A)} {len pos : Nat}

theorem Cursor.cells_eq_iff : c.cells = ⟨[], pos⟩ ↔ c = ⟨[], pos⟩ := by
  cases c
  simp [cells]

theorem fragReadLoop_cells (junk : A) (n : Nat) (c : Cursor A) :
    (fragReadLoop none n c.cells).1 = (fragReadLoop junk n c).1.cells ∧
      (fragReadLoop junk n c).2 = (fragReadLoop none n c.cells).2.map (·.getD junk) := by
  induction n generalizing c with
  | zero => exact ⟨rfl, rfl⟩
  | succ n ih =>
    obtain ⟨_ | ⟨frag, rest⟩, pos⟩ := c
    · exact ⟨rfl, rfl⟩
    have hlen : (bufCells frag).length ≤ pos + 1 ↔ frag.length ≤ pos + 1 := by
      cases frag <;> simp [bufCells]
    have hget : (bufCells frag).getD pos none = frag[pos]? := by
      cases frag with
      | nil => cases pos <;> rfl
      | cons b frag =>
        rw [bufCells, getD_eq_getElem?_getD, getElem?_map]
        cases (b :: frag)[pos]? <;> rfl
    have hbyte : fragReadByte none (bufCells frag) (rest.map bufCells) pos =
        ((fragReadByte junk frag rest pos).1.cells, frag[pos]?) := by
      simp only [fragReadByte, hlen, hget]
      split <;> rfl
    obtain ⟨hcur, hdata⟩ := ih (fragReadByte junk frag rest pos).1
    have hdata' : (fragReadByte junk frag rest pos).2 = frag[pos]?.getD junk :=
      getD_eq_getElem?_getD
    simp only [Cursor.cells, map_cons, fragReadLoop, hbyte, isEmpty_map, hdata']
    split
    · exact ⟨rfl, rfl⟩
    · exact ⟨hcur, congrArg _ hdata⟩

theorem Cursor.At.filterMap_eq (h : c.cells.At cells) :
    cells.filterMap id = c.frags.flatten.drop c.pos := by
  have hflat : ∀ fs : List (List A), (fs.map bufCells).flatten.filterMap id = fs.flatten := by
    intro fs
    induction fs with
    | nil => rfl
    | cons f fs ih => cases f <;> simpa [bufCells] using ih
  obtain ⟨frags, pos⟩ := c
  rw [← h.bytes]
  rcases h.pos with hlt | ⟨-, rfl⟩
  · cases frags with
    | nil => cases hlt
    | cons frag rest =>
      replace hlt : pos < (bufCells frag).length := hlt
      cases frag with
      | nil =>
        obtain rfl : pos = 0 := Nat.lt_one_iff.mp hlt
        exact hflat _
      | cons b frag =>
        have hle := Nat.le_of_lt hlt
        simp only [Cursor.cells, map_cons, flatten_cons, drop_append_of_le_length hle,
          filterMap_append, hflat]
        rw [bufCells, length_map] at hle
        rw [drop_append_of_le_length hle, bufCells, ← map_drop]
        simp
  · exact hflat frags

/-- A read of `len` bytes with `bytes` ahead of it. -/
structure ReadRight (bytes : List A) (len : Nat) (r : Cursor A × List A) : Prop where
  fails : r.1 = .error ↔ bytes.length < len
  data : len ≤ bytes.length → r.2 = bytes.take len
  next : len ≤ bytes.length → r.1.frags.flatten.drop r.1.pos = bytes.drop len
  last : bytes.length = len → r.1 = ⟨[], 0⟩

/-- The read meets no empty buffer between its bytes, behind the last byte of the chain or in place
of bytes that are missing. -/
def MeetsBytes (bytes : List A) (cells : List (Option A)) (len : Nat) : Prop :=
  if len ≤ bytes.length then none ∉ cells.take len ∧ (bytes.length = len → cells.length = len)
  else cells.length < len

theorem Cursor.At.readLoop_iff (h : c.cells.At cells) (hne : cells ≠ []) (junk : A) (len : Nat) :
    ReadRight (cells.filterMap id) len (fragReadLoop junk len c) ↔
      MeetsBytes (cells.filterMap id) cells len := by
  obtain ⟨hcur, hdata⟩ := fragReadLoop_cells junk len c
  have hle := length_filterMap_le id cells
  obtain ⟨hread, hshort⟩ := h.readLoop none len
  unfold MeetsBytes
  by_cases hin : len ≤ cells.length
  · obtain ⟨c', hloop, hat⟩ := hread hin
    rw [hloop] at hcur hdata
    subst hcur
    generalize fragReadLoop junk len c = r at hdata hat ⊢
    have hnext := hat.filterMap_eq
    have hsplit : (cells.take len).filterMap id ++ r.1.frags.flatten.drop r.1.pos =
        cells.filterMap id := by
      rw [← hnext, ← filterMap_append, take_append_drop]
    have herr : r.1 ≠ .error := by
      intro he
      rw [he] at hat
      simpa [Cursor.error, Cursor.cells] using hat.pos
    have hend : r.1 = ⟨[], 0⟩ ↔ cells.length ≤ len := by
      have hpos := hat.pos
      rw [← Cursor.cells_eq_iff, ← drop_eq_nil_iff, ← hat.frags_nil_iff]
      generalize r.1.cells = d at hpos
      obtain ⟨frags, pos⟩ := d
      refine ⟨fun he => congrArg _ he, ?_⟩
      rintro rfl
      simpa using hpos
    split
    · next htotal =>
      constructor
      · rintro ⟨-, -, hrest, hlast⟩
        refine ⟨fun hnone => ?_, fun he => ?_⟩
        · have hlt := length_filterMap_lt_length_iff_exists.mpr ⟨none, hnone, id_eq none⟩
          have hcount := congrArg length hsplit
          rw [hrest htotal, length_append, length_drop] at hcount
          rw [length_take] at hlt
          omega
        · have := hend.mp (hlast he)
          omega
      · rintro ⟨hnone, hlast⟩
        have hbs : (cells.take len).filterMap id = r.2 := by
          rw [hdata, ← filterMap_eq_map]
          refine filterMap_congr fun o ho => ?_
          cases o with
          | none => exact absurd ho hnone
          | some b => rfl
        have hlen : r.2.length = len := by rw [hdata, length_map, length_take_of_le hin]
        rw [← hsplit, hbs]
        refine ⟨iff_of_false herr (by simp; omega), fun _ => ?_, fun _ => ?_, fun he => ?_⟩
        · rw [take_left' hlen]
        · rw [drop_left' hlen]
        · exact hend.mpr (Nat.le_of_eq (hlast (by rw [← hsplit, hbs, he])))
    · next htotal =>
      exact iff_of_false (fun hright => herr (hright.fails.mpr (by omega))) (by omega)
  · rw [if_neg (by omega)]
    have hfail : (fragReadLoop junk len c).1 = .error :=
      Cursor.cells_eq_iff.mp (hcur.symm.trans (hshort hne (by omega)))
    exact iff_of_true ⟨iff_of_true hfail (by omega), by omega, by omega, by omega⟩ (by omega)

def readCells : List (List A) → Nat → List (Option A)
  | [], _ => []
  | frag :: rest, offset =>
    if offset < frag.length then ((frag :: rest).map bufCells).flatten.drop offset
    else readCells rest (offset - frag.length)

/-- A read is right exactly if it meets no empty buffer behind its first byte. -/
theorem readRight_iff (junk : A) (frags : List (List A)) (offset : Nat) (hlen : 0 < len) :
    ReadRight (frags.flatten.drop offset) len (fragRead junk ⟨frags, offset⟩ len) ↔
      MeetsBytes (frags.flatten.drop offset) (readCells frags offset) len := by
  induction frags generalizing offset with
  | nil =>
    rw [MeetsBytes, flatten_nil, drop_nil, length_nil, if_neg (Nat.not_le.mpr hlen)]
    exact iff_of_true ⟨iff_of_true rfl hlen, by simp; omega, by simp; omega, by simp; omega⟩ hlen
  | cons frag rest ih =>
    by_cases hlt : offset < frag.length
    · have hat : (Cursor.mk (frag :: rest) offset).cells.At
          (((frag :: rest).map bufCells).flatten.drop offset) := by
        refine ⟨fun f hf => ?_, .inl (show offset < (bufCells frag).length from ?_), rfl⟩
        · obtain ⟨f, -, rfl⟩ := mem_map.mp hf
          cases f <;> exact cons_ne_nil _ _
        · cases frag with
          | nil => cases hlt
          | cons b frag => simpa [bufCells] using hlt
      have := hat.readLoop_iff (mt hat.frags_nil_iff.mpr (cons_ne_nil _ _)) junk len
      rw [hat.filterMap_eq] at this
      simpa only [fragRead, adjustOffset, readCells, if_pos hlt] using this
    · have hdrop : (frag :: rest).flatten.drop offset =
          rest.flatten.drop (offset - frag.length) := by
        rw [flatten_cons, drop_append, drop_eq_nil_of_le (Nat.not_lt.mp hlt), nil_append]
      rw [hdrop]
      simpa only [fragRead, adjustOffset, readCells, if_neg hlt] using ih (offset - frag.length)

theorem readRight_boundary :
    ReadRight [1, 2, 3] 2 (fragRead 0 ⟨[[], [1], [2], [], [3]], 0⟩ 2) :=
  (readRight_iff 0 [[], [1], [2], [], [3]] 0 (by decide)).mpr ⟨by decide, by decide⟩

/-- The empty buffer between the two bytes is read as if it had one. -/
theorem fragRead_empty : fragRead 0 ⟨[[1], [], [2]], 0⟩ 2 = (⟨[[2]], 0⟩, [1, 0]) ∧
    ¬ ReadRight [1, 2] 2 (fragRead 0 ⟨[[1], [], [2]], 0⟩ 2) :=
  ⟨rfl, fun h => absurd (h.data (by decide)) (by decide)⟩

def appendBytes (size avail : Nat) (frags : List (List A)) (data : List A) : List (List A) × Nat :=
  let last := frags.getLastD []
  let count := min data.length (size - last.length)
  let frags := frags.dropLast ++ [last ++ data.take count]
  match avail with
  | 0 => (frags, count)
  | n + 1 =>
    if data.length - count = 0 then (frags, count)
    else
      let r := appendBytes size n (frags ++ [[]]) (data.drop count)
      (r.1, count + r.2)

structure Pkt (A : Type*) where
  frags : List (List A)
  dataLen : Option Nat

def append (size avail : Nat) (pkt : Pkt A) (data : List A) : Pkt A × Nat :=
  let len := pkt.dataLen.elim data.length (min data.length)
  let r := appendBytes size avail pkt.frags (data.take len)
  (⟨r.1, pkt.dataLen.map (· - r.2)⟩, r.2)

theorem dropLast_append_getLastD (frags : List (List A)) (x : List A) :
    (frags.dropLast ++ [frags.getLastD [] ++ x]).flatten = frags.flatten ++ x := by
  rcases eq_nil_or_concat frags with rfl | ⟨_, _, rfl⟩ <;> simp

theorem appendBytes_flatten (size avail : Nat) (frags : List (List A)) (data : List A) :
    (appendBytes size avail frags data).2 ≤ data.length ∧
      (appendBytes size avail frags data).1.flatten =
        frags.flatten ++ data.take (appendBytes size avail frags data).2 := by
  induction avail generalizing frags data with
  | zero =>
    exact ⟨Nat.min_le_left .., dropLast_append_getLastD ..⟩
  | succ n ih =>
    rw [appendBytes]
    dsimp only
    split
    · exact ⟨Nat.min_le_left .., dropLast_append_getLastD ..⟩
    · generalize hcount : min data.length (size - (frags.getLastD []).length) = count
      obtain ⟨hle', hflat⟩ := ih (frags.dropLast ++ [frags.getLastD [] ++ data.take count] ++ [[]])
        (data.drop count)
      rw [length_drop] at hle'
      refine ⟨by omega, ?_⟩
      rw [hflat, flatten_append, dropLast_append_getLastD, take_add]
      simp

theorem appendBytes_all (hsize : 0 < size)
    (h : data.length ≤ avail + if (frags.getLastD []).length < size then 1 else 0) :
    (appendBytes size avail frags data).2 = data.length := by
  induction avail generalizing frags data with
  | zero =>
    rw [appendBytes]
    split at h <;> omega
  | succ n ih =>
    rw [appendBytes]
    dsimp only
    split
    · next hnone => omega
    · next hsome =>
      rw [ih (by
        rw [getLastD_concat, length_nil, if_pos hsize, length_drop]
        split at h <;> omega), length_drop]
      omega

theorem append_flatten (size avail : Nat) (pkt : Pkt A) (data : List A) :
    (append size avail pkt data).1.frags.flatten =
      pkt.frags.flatten ++ data.take (append size avail pkt data).2 := by
  rw [append]
  generalize pkt.dataLen.elim data.length (min data.length) = len
  obtain ⟨hle, hflat⟩ := appendBytes_flatten size avail pkt.frags (data.take len)
  rw [hflat, take_take]
  rw [length_take] at hle
  congr 2
  omega

structure Appended (pkt pkt' : Pkt A) (bytes : List A) : Prop where
  all : pkt'.frags.flatten = pkt.frags.flatten ++ bytes ∨ pkt'.dataLen = some 0
  stays : pkt.dataLen = some 0 → pkt'.dataLen = some 0

variable {pkt pkt' pkt'' : Pkt A}

theorem appended_nil (pkt : Pkt A) : Appended pkt pkt [] :=
  ⟨.inl (append_nil _).symm, id⟩

theorem Appended.trans (h : Appended pkt pkt' x) (h' : Appended pkt' pkt'' y) :
    Appended pkt pkt'' (x ++ y) := by
  refine ⟨?_, h'.stays ∘ h.stays⟩
  rcases h.all with hx | hx
  · rcases h'.all with hy | hy
    · exact .inl (by rw [hy, hx, append_assoc])
    · exact .inr hy
  · exact .inr (h'.stays hx)

theorem append_exhausted (size avail : Nat) (data : List A) (h : pkt.dataLen = some 0) :
    (append size avail pkt data).1.dataLen = some 0 ∧ (append size avail pkt data).2 = 0 := by
  have hzero : (append size avail pkt data).2 = 0 := by
    have hle := (appendBytes_flatten size avail pkt.frags (data.take 0)).1
    rw [append, h]
    simpa using hle
  refine ⟨?_, hzero⟩
  rw [append, h]
  simp

theorem append_appended (hsize : 0 < size) (pkt : Pkt A) (data : List A) :
    Appended pkt (append size data.length pkt data).1 data := by
  refine ⟨?_, fun h => (append_exhausted size _ data h).1⟩
  have hflat := append_flatten size data.length pkt data
  have hcount : (append size data.length pkt data).2 =
      pkt.dataLen.elim data.length (min data.length) := by
    rw [append]
    rw [appendBytes_all hsize (by rw [length_take]; omega)]
    cases pkt.dataLen <;> simp
  cases hlen : pkt.dataLen with
  | none =>
    rw [hlen] at hcount
    rw [hcount, elim_none, take_length] at hflat
    exact .inl hflat
  | some d =>
    rw [hlen, elim_some] at hcount
    by_cases hd : data.length ≤ d
    · rw [hcount, Nat.min_eq_left hd, take_length] at hflat
      exact .inl hflat
    · refine .inr ?_
      have hleft : (append size data.length pkt data).1.dataLen =
        pkt.dataLen.map (· - (append size data.length pkt data).2) := rfl
      rw [hleft, hcount, hlen, map_some, Nat.min_eq_right (by omega), Nat.sub_self]

theorem append_all (h : (append size avail pkt data).2 = data.length) :
    Appended pkt (append size avail pkt data).1 data := by
  refine ⟨.inl ?_, fun h => (append_exhausted size avail data h).1⟩
  rw [append_flatten, h, take_length]

end Zephyr.NetPkt
