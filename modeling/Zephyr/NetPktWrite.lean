import Zephyr.NetPkt
import Zephyr.Slices

/-! Writing into the buffer chain of a packet at an offset: `net_pkt_write`. Space that is left in
front of the offset is not initialised and has the value `junk`. -/

namespace Zephyr.NetPkt

open List

variable {A : Type*} {size n offset pos : Nat} {junk : A} {frag data : List A}
  {rest frags inputs before : List (List A)} {place : List (List A) × List (List A) × Nat}
  {l : List A}

def orNew : List (List A) → List (List A)
  | [] => [[]]
  | frag :: rest => frag :: rest

/-- `adjust_write_offset`: the fragments that are passed, the chain from the one to write to, and
the position in that one. A round passes a fragment. -/
def adjustWriteOffset (size : Nat) (junk : A) :
    Nat → List (List A) → Nat → List (List A) × List (List A) × Nat
  | 0, frags, offset => ([], orNew frags, offset)
  | n + 1, frags, offset =>
    let frag := frags.headD []
    let rest := frags.tail
    let tailroom := size - frag.length
    if offset < frag.length then ([], frag :: rest, offset)
    else if offset = frag.length then
      if 0 < tailroom then ([], frag :: rest, offset) else ([frag], orNew rest, 0)
    else if offset - frag.length < tailroom then
      ([], (frag ++ replicate (offset - frag.length) junk) :: rest, offset)
    else if offset - frag.length = tailroom then
      ([frag ++ replicate tailroom junk], orNew rest, 0)
    else
      let r := adjustWriteOffset size junk n rest (offset - frag.length - tailroom)
      ((frag ++ replicate tailroom junk) :: r.1, r.2)

def writeLoop (size : Nat) :
    Nat → List (List A) → Nat → List A → List (List A) × List (List A) × Nat
  | 0, frags, offset, _ => ([], frags, offset)
  | n + 1, frags, offset, data =>
    let frag := frags.headD []
    let rest := frags.tail
    let count := min data.length (size - offset)
    let frag' := writeAt frag offset (data.take count)
    if data.length - count = 0 then ([], frag' :: rest, offset + count)
    else
      let r := writeLoop size n rest 0 (data.drop count)
      (frag' :: r.1, r.2)

/-- `net_pkt_write` from a fragment on, where `before` has the fragments in front of it. -/
def write (size : Nat) (junk : A) (place : List (List A) × List (List A) × Nat) (data : List A) :
    List (List A) × List (List A) × Nat :=
  let a := adjustWriteOffset size junk (place.2.2 + 1) place.2.1 place.2.2
  let w := writeLoop size (data.length + 2) a.2.1 a.2.2 data
  (place.1 ++ a.1 ++ w.1, w.2)

def Dense (size : Nat) : List (List A) → Prop
  | [] => True
  | [frag] => frag.length ≤ size
  | frag :: next :: rest => frag.length = size ∧ Dense size (next :: rest)

theorem Dense.cons (h : Dense size (frag :: rest)) :
    (rest = [] ∧ frag.length ≤ size) ∨ (rest ≠ [] ∧ frag.length = size ∧ Dense size rest) := by
  cases rest with
  | nil => exact .inl ⟨rfl, h⟩
  | cons next rest => exact .inr ⟨by simp, h.1, h.2⟩

theorem Dense.tail (h : Dense size frags) : Dense size frags.tail := by
  cases frags with
  | nil => trivial
  | cons frag rest =>
    rcases h.cons with ⟨rfl, -⟩ | ⟨-, -, h⟩
    · trivial
    · exact h

theorem dense_cons (hfrag : frag.length = size) (h : Dense size rest) :
    Dense size (frag :: rest) := by
  cases rest with
  | nil => exact Nat.le_of_eq hfrag
  | cons next rest => exact ⟨hfrag, h⟩

theorem dense_append (hbefore : ∀ f ∈ before, f.length = size) (h : Dense size frags) :
    Dense size (before ++ frags) := by
  induction before with
  | nil => exact h
  | cons f before ih =>
    rw [forall_mem_cons] at hbefore
    exact dense_cons hbefore.1 (ih hbefore.2)

theorem dense_orNew (h : Dense size rest) : Dense size (orNew rest) := by
  cases rest with
  | nil => exact Nat.zero_le _
  | cons next rest => exact h

theorem orNew_flatten (rest : List (List A)) : (orNew rest).flatten = rest.flatten := by
  cases rest <;> rfl

structure Points (size : Nat) (r : List (List A) × List (List A) × Nat) (offset : Nat) : Prop where
  full : ∀ f ∈ r.1, f.length = size
  dense : Dense size r.2.1
  ne : r.2.1 ≠ []
  le : r.2.2 ≤ (r.2.1.headD []).length
  offset_eq : r.1.flatten.length + r.2.2 = offset

def contents (r : List (List A) × List (List A) × Nat) : List A := (r.1 ++ r.2.1).flatten

theorem orNew_eq_cons (frags : List (List A)) : orNew frags = frags.headD [] :: frags.tail := by
  cases frags <;> rfl

theorem adjustWriteOffset_spec (junk : A) (hsize : 0 < size) (hn : offset < n)
    (h : Dense size frags) :
    Points size (adjustWriteOffset size junk n frags offset) offset ∧
      contents (adjustWriteOffset size junk n frags offset) =
        frags.flatten ++ replicate (offset - frags.flatten.length) junk := by
  unfold contents
  induction n generalizing frags offset with
  | zero => omega
  | succ n ih =>
    have htail := h.tail
    have hdense := dense_orNew h
    have hflat := orNew_flatten frags
    rw [orNew_eq_cons] at hdense hflat
    rw [← hflat]
    simp only [adjustWriteOffset]
    generalize frags.headD [] = frag at *
    generalize frags.tail = rest at *
    have hlast : 0 < size - frag.length → rest = [] := by
      intro htr
      rcases hdense.cons with ⟨hrest, -⟩ | ⟨-, hfull, -⟩
      · exact hrest
      · omega
    have hle : frag.length ≤ size := by
      rcases hdense.cons with ⟨-, hle⟩ | ⟨-, hfull, -⟩ <;> omega
    split
    · next hlt =>
      refine ⟨⟨by simp, hdense, by simp, Nat.le_of_lt hlt, by simp⟩, ?_⟩
      have hzero : offset - (frag :: rest).flatten.length = 0 := by simp; omega
      rw [hzero, replicate_zero, append_nil, nil_append]
    split
    · next hge heq =>
      have hzero : offset - (frag :: rest).flatten.length = 0 := by simp; omega
      rw [hzero, replicate_zero, append_nil]
      split
      · exact ⟨⟨by simp, hdense, by simp, Nat.le_of_eq heq, by simp⟩, rfl⟩
      · next hfull =>
        refine ⟨⟨by simpa using (by omega : frag.length = size), dense_orNew htail,
          by rw [orNew_eq_cons]; simp, Nat.zero_le _, by simp [heq]⟩, ?_⟩
        simp [orNew_flatten]
    split
    · next hge hne hlt =>
      obtain rfl := hlast (by omega)
      have hlen : (frag ++ replicate (offset - frag.length) junk).length = offset := by
        rw [length_append, length_replicate]
        omega
      refine ⟨⟨by simp, ?_, by simp, ?_, by simp⟩, by simp⟩
      · show (frag ++ replicate (offset - frag.length) junk).length ≤ size
        omega
      · exact Nat.le_of_eq hlen.symm
    split
    · next hge hne hge' heq =>
      obtain rfl := hlast (by omega)
      refine ⟨⟨?_, Nat.zero_le _, by simp [orNew], Nat.zero_le _, ?_⟩, ?_⟩
      · simp only [mem_singleton, forall_eq, length_append, length_replicate]
        omega
      · simp
        omega
      · simp [orNew, heq]
    · next hge hne hge' hne' =>
      have hfull : (frag ++ replicate (size - frag.length) junk).length = size := by
        rw [length_append, length_replicate]
        omega
      have hn' : offset - frag.length - (size - frag.length) < n := by omega
      obtain ⟨hpoints, hflat'⟩ := ih hn' htail
      refine ⟨⟨forall_mem_cons.mpr ⟨hfull, hpoints.full⟩, hpoints.dense, hpoints.ne,
        hpoints.le, ?_⟩, ?_⟩
      · have := hpoints.offset_eq
        dsimp only
        rw [flatten_cons, length_append]
        omega
      · rw [cons_append, flatten_cons, hflat', flatten_cons]
        rcases Nat.eq_zero_or_pos (size - frag.length) with hz | hpos
        · rw [hz, replicate_zero, append_nil, append_assoc, length_append,
            Nat.sub_zero, Nat.sub_sub]
        · obtain rfl := hlast hpos
          rw [flatten_nil, nil_append, append_nil, append_assoc, replicate_append_replicate]
          congr 2
          simp only [length_nil]
          omega

def patch (junk : A) (l : List A) (offset : Nat) (data : List A) : List A :=
  writeAt (l ++ replicate (offset - l.length) junk) offset data

theorem writeAt_append_left {l t x : List A} (h : pos + x.length ≤ l.length) :
    writeAt (l ++ t) pos x = writeAt l pos x ++ t := by
  rw [writeAt, writeAt, take_append_of_le_length (by omega),
    drop_append_of_le_length h, append_assoc, append_assoc, append_assoc]

theorem writeAt_length {l x : List A} (h : pos ≤ l.length) :
    (writeAt l pos x).length = max l.length (pos + x.length) := by
  rw [writeAt, length_append, length_append, length_take, length_drop]
  omega

theorem writeAt_append_right {l t x y : List A} (hpos : pos ≤ l.length)
    (hx : l.length ≤ pos + x.length) (ht : t = [] ∨ pos + x.length = l.length) :
    writeAt (l ++ t) pos (x ++ y) = writeAt l pos x ++ writeAt t 0 y := by
  have hdrop := drop_of_length_le hx
  have hdrop' : (l ++ t).drop (pos + (x ++ y).length) = t.drop y.length := by
    rw [length_append, ← Nat.add_assoc, ← drop_drop]
    rcases ht with rfl | hlen
    · rw [append_nil, hdrop]
    · rw [hlen, drop_left]
  simp only [writeAt, hdrop, hdrop', take_append_of_le_length hpos, take_zero, nil_append,
    Nat.zero_add, append_assoc]

theorem writeLoop_spec (hsize : 0 < size) (h : Dense size frags)
    (hle : pos ≤ (frags.headD []).length) (hn : data.length + (if pos < size then 0 else 1) < n) :
    Points size (writeLoop size n frags pos data) (pos + data.length) ∧
      contents (writeLoop size n frags pos data) = writeAt frags.flatten pos data := by
  unfold contents
  induction n generalizing frags pos data with
  | zero => omega
  | succ n ih =>
    have htail := h.tail
    have hdense := dense_orNew h
    have hflat := orNew_flatten frags
    rw [orNew_eq_cons] at hdense hflat
    rw [← hflat]
    simp only [writeLoop]
    generalize frags.headD [] = frag at *
    generalize frags.tail = rest at *
    have hfrag : frag.length ≤ size := by
      rcases hdense.cons with ⟨-, hle⟩ | ⟨-, hfull, -⟩ <;> omega
    split
    · next hdone =>
      have hcount : min data.length (size - pos) = data.length := by omega
      have hlen := writeAt_length (x := data) hle
      rw [hcount, take_length]
      rcases hdense.cons with ⟨rfl, -⟩ | ⟨hne, hfull, hrest⟩
      · refine ⟨⟨by simp, ?_, by simp, ?_, by simp⟩, by simp⟩
        · show (writeAt frag pos data).length ≤ size
          omega
        · show pos + data.length ≤ (writeAt frag pos data).length
          omega
      · refine ⟨⟨by simp, dense_cons (by omega) hrest, by simp, ?_, by simp⟩, ?_⟩
        · show pos + data.length ≤ (writeAt frag pos data).length
          omega
        · rw [flatten_cons, writeAt_append_left (by omega)]
          rfl
    · next hmore =>
      have hcount : min data.length (size - pos) = size - pos := by omega
      have htake : (data.take (size - pos)).length = size - pos := by
        rw [length_take]
        omega
      have hlen : (writeAt frag pos (data.take (size - pos))).length = size := by
        rw [writeAt_length hle]
        omega
      rw [hcount]
      have hn' : (data.drop (size - pos)).length + (if 0 < size then 0 else 1) < n := by
        rw [length_drop, if_pos hsize]
        split at hn <;> omega
      obtain ⟨hpoints, hflat'⟩ := ih htail (Nat.zero_le _) hn'
      refine ⟨⟨forall_mem_cons.mpr ⟨hlen, hpoints.full⟩, hpoints.dense, hpoints.ne,
        hpoints.le, ?_⟩, ?_⟩
      · have := hpoints.offset_eq
        rw [length_drop] at this
        dsimp only
        rw [flatten_cons, length_append]
        omega
      · rw [cons_append, flatten_cons, hflat', flatten_cons,
          ← writeAt_append_right hle (by omega) (by
            rcases hdense.cons with ⟨rfl, -⟩ | ⟨-, hfull, -⟩
            · exact .inl rfl
            · exact .inr (by omega)), take_append_drop]

theorem patch_length : (patch junk l offset data).length = max l.length (offset + data.length) := by
  rw [patch, writeAt_length (by rw [length_append, length_replicate]; omega),
    length_append, length_replicate]
  omega

theorem getElem?_patch {i : Nat} : (patch junk l offset data)[i]? =
      if offset ≤ i ∧ i < offset + data.length then data[i - offset]?
      else if i < l.length then l[i]? else if i < offset then some junk else none := by
  have hpad : (l ++ replicate (offset - l.length) junk)[i]? =
      if i < l.length then l[i]? else if i < offset then some junk else none := by
    split
    · next hlt => rw [getElem?_append_left hlt]
    · next hge =>
      rw [getElem?_append_right (by omega), getElem?_replicate]
      split <;> split <;> first | rfl | omega
  have htake : ((l ++ replicate (offset - l.length) junk).take offset).length = offset := by
    rw [length_take, length_append, length_replicate]
    omega
  rw [patch, writeAt, append_assoc]
  split
  · next hin =>
    rw [getElem?_append_right (by omega), htake, getElem?_append_left (by omega)]
  · next hout =>
    rw [← hpad]
    by_cases hlt : i < offset
    · rw [getElem?_append_left (by omega), getElem?_take_of_lt hlt]
    · rw [getElem?_append_right (by omega), getElem?_append_right (by omega), getElem?_drop]
      congr 1
      omega

theorem patch_patch {l x y : List A} :
    patch junk (patch junk l offset x) (offset + x.length) y = patch junk l offset (x ++ y) := by
  refine ext_getElem? fun i => ?_
  simp only [getElem?_patch, patch_length, length_append]
  by_cases h1 : offset + x.length ≤ i ∧ i < offset + x.length + y.length
  · rw [if_pos h1, if_pos (by omega), getElem?_append_right (by omega)]
    congr 1
    omega
  rw [if_neg h1]
  by_cases h2 : offset ≤ i ∧ i < offset + x.length
  · rw [if_pos (by omega), if_pos h2, if_pos (by omega), getElem?_append_left (by omega)]
  · rw [if_neg h2, if_neg (by omega : ¬ (offset ≤ i ∧ i < offset + (x.length + y.length)))]
    by_cases h3 : i < l.length
    · rw [if_pos (by omega)]
    rw [if_neg h3]
    by_cases h4 : i < offset
    · rw [if_pos (by omega)]
    · rw [if_neg (by omega), if_neg (by omega), if_neg h4]

theorem append_writeAt {l t x : List A} :
    l ++ writeAt t pos x = writeAt (l ++ t) (l.length + pos) x := by
  rw [writeAt, writeAt, take_length_add_append, Nat.add_assoc, drop_length_add_append,
    append_assoc, append_assoc, append_assoc]

theorem write_spec (junk : A) (data : List A) (hsize : 0 < size)
    (hfull : ∀ f ∈ place.1, f.length = size) (hdense : Dense size place.2.1)
    (hoff : place.1.flatten.length + place.2.2 = offset) :
    Points size (write size junk place data) (offset + data.length) ∧
      contents (write size junk place data) = patch junk (contents place) offset data := by
  obtain ⟨ha, haflat⟩ := adjustWriteOffset_spec junk hsize (Nat.lt_succ_self place.2.2) hdense
  simp only [write, contents]
  generalize adjustWriteOffset size junk (place.2.2 + 1) place.2.1 place.2.2 = a at *
  have hn : data.length + (if a.2.2 < size then 0 else 1) < data.length + 2 := by
    split <;> omega
  obtain ⟨hw, hwflat⟩ := writeLoop_spec hsize ha.dense ha.le hn
  refine ⟨⟨?_, hw.dense, hw.ne, hw.le, ?_⟩, ?_⟩
  · simp only [mem_append]
    rintro f ((hf | hf) | hf)
    · exact hfull f hf
    · exact ha.full f hf
    · exact hw.full f hf
  · have h1 := hw.offset_eq
    have h2 := ha.offset_eq
    simp only [flatten_append, length_append]
    omega
  · have h2 := ha.offset_eq
    have hlen : (place.1.flatten ++ place.2.1.flatten).length = place.1.flatten.length +
      place.2.1.flatten.length := length_append
    have hsub : offset - (place.1.flatten ++ place.2.1.flatten).length =
        place.2.2 - place.2.1.flatten.length := by omega
    rw [contents, flatten_append] at haflat hwflat
    simp only [flatten_append, append_assoc]
    rw [hwflat, append_writeAt, append_writeAt, haflat, patch, hsub, append_assoc, h2, hoff]

def copyFrag (size : Nat) (junk : A) (frags inputs : List (List A)) (offset : Nat) :
    List (List A) :=
  let r := inputs.foldl (write size junk) ([], frags, offset)
  r.1 ++ r.2.1

theorem patch_nil (h : offset ≤ l.length) : patch junk l offset [] = l := by
  rw [patch, Nat.sub_eq_zero_of_le h, replicate_zero, append_nil, writeAt,
    append_nil, length_nil, Nat.add_zero, take_append_drop]

theorem Points.offset_le {r : List (List A) × List (List A) × Nat} (h : Points size r offset) :
    offset ≤ (contents r).length := by
  have hle := h.le
  have hoff := h.offset_eq
  obtain ⟨_, _, hfrags⟩ := exists_cons_of_ne_nil h.ne
  rw [hfrags, headD_cons] at hle
  rw [contents, hfrags, flatten_append, flatten_cons, length_append, length_append]
  omega

theorem foldl_write_spec (junk : A)
    (hsize : 0 < size) (h : Points size place offset) (inputs : List (List A)) :
    Points size (inputs.foldl (write size junk) place) (offset + inputs.flatten.length) ∧
      contents (inputs.foldl (write size junk) place) =
        patch junk (contents place) offset inputs.flatten := by
  induction inputs generalizing place offset with
  | nil =>
    refine ⟨by simpa using h, ?_⟩
    rw [foldl_nil, flatten_nil, patch_nil h.offset_le]
  | cons data inputs ih =>
    obtain ⟨hw, hflat⟩ := write_spec junk data hsize h.full h.dense h.offset_eq
    obtain ⟨hpoints, hflat'⟩ := ih hw
    rw [foldl_cons, flatten_cons, length_append, ← Nat.add_assoc, hflat', hflat, patch_patch]
    exact ⟨hpoints, rfl⟩

theorem copyFrag_spec (junk : A) (offset : Nat) (hsize : 0 < size) (h : Dense size frags)
    (hne : inputs ≠ []) :
    Dense size (copyFrag size junk frags inputs offset) ∧
      (copyFrag size junk frags inputs offset).flatten =
        patch junk frags.flatten offset inputs.flatten := by
  cases inputs with
  | nil => exact absurd rfl hne
  | cons data inputs =>
    let place : List (List A) × List (List A) × Nat := ([], frags, offset)
    have hoff := Nat.zero_add offset
    have hfull : ∀ f ∈ place.1, f.length = size := by simp [place]
    obtain ⟨hw, hflat⟩ := write_spec junk data hsize hfull h hoff
    obtain ⟨hpoints, hflat'⟩ := foldl_write_spec junk hsize hw inputs
    refine ⟨dense_append hpoints.full hpoints.dense, ?_⟩
    have hcopy : (copyFrag size junk frags (data :: inputs) offset).flatten =
      contents (inputs.foldl (write size junk) (write size junk place data)) := rfl
    rw [hcopy, hflat', hflat, flatten_cons, patch_patch]
    rfl

theorem Compacted.dense (h : Compacted size frags) : Dense size frags := by
  induction frags with
  | nil => trivial
  | cons frag rest ih =>
    cases rest with
    | nil => exact h.2
    | cons next rest => exact ⟨h.1, ih h.2.2⟩

end Zephyr.NetPkt
