import Mathlib

/-! Circular arrays. The occupied cells from the start on are a list; a run of cells written behind
them is appended to it, and a run read from the start is its beginning. -/

namespace Zephyr

open List Function

variable {A : Type*} {buf : Nat → A} {xs : List A} {size start used pos n : Nat}

def readRun (buf : Nat → A) (pos n : Nat) : List A := (range n).map fun i => buf (pos + i)

def writeRun (buf : Nat → A) (pos : Nat) (xs : List A) : Nat → A :=
  fun i => if pos ≤ i then xs.getD (i - pos) (buf i) else buf i

def ringContents (buf : Nat → A) (size start used : Nat) : List A :=
  (range used).map fun i => buf ((start + i) % size)

@[simp] theorem length_readRun : (readRun buf pos n).length = n := by simp [readRun]

@[simp] theorem length_ringContents : (ringContents buf size start used).length = used := by
  simp [ringContents]

theorem writeRun_off {i : Nat} (hi : i < pos ∨ pos + xs.length ≤ i) :
    writeRun buf pos xs i = buf i := by
  unfold writeRun
  split_ifs with hp
  · rw [getD_eq_getElem?_getD, getElem?_eq_none (by omega), Option.getD_none]
  · rfl

theorem writeRun_on {j : Nat} (hj : j < xs.length) : writeRun buf pos xs (pos + j) = xs[j] := by
  simp [writeRun, hj]

theorem readRun_writeRun_self : readRun (writeRun buf pos xs) pos xs.length = xs := by
  refine ext_getElem (by simp) fun j h1 h2 => ?_
  simp only [readRun, getElem_map, getElem_range]
  exact writeRun_on h2

theorem readRun_writeRun_off {i : Nat} (hi : i + n ≤ pos ∨ pos + xs.length ≤ i) :
    readRun (writeRun buf pos xs) i n = readRun buf i n := by
  refine map_congr_left fun j hj => writeRun_off ?_
  have := mem_range.mp hj
  omega

theorem map_range_add {f : Nat → A} (m k : Nat) : (range (m + k)).map f =
    (range m).map f ++ (range k).map fun j => f (m + j) := by
  simp [range_add]

theorem cell_inj {i j : Nat} (h : (start + i) % size = (start + j) % size) (hi : i < size)
    (hj : j < size) : i = j :=
  (Nat.ModEq.add_left_cancel' start h).eq_of_lt_of_lt hi hj

theorem ringContents_writeRun (hpos : pos = (start + used) % size)
    (hfree : used + xs.length ≤ size) (hend : pos + xs.length ≤ size) :
    ringContents (writeRun buf pos xs) size start (used + xs.length) =
      ringContents buf size start used ++ xs := by
  have hcell : ∀ j < xs.length, (start + (used + j)) % size = pos + j := by
    intro j hj
    rw [← Nat.add_assoc, ← Nat.mod_add_mod, ← hpos]
    exact Nat.mod_eq_of_lt (by omega)
  unfold ringContents
  rw [map_range_add]
  congr 1
  · refine map_congr_left fun i hi => writeRun_off ?_
    -- a cell of the run would be reached twice from the start
    by_contra hin
    have hi := mem_range.mp hi
    have hj : (start + i) % size - pos < xs.length := by omega
    have := cell_inj (i := i) ((hcell _ hj).trans (by omega)).symm (by omega) (by omega)
    omega
  · refine ext_getElem (by simp) fun j h1 h2 => ?_
    simp only [getElem_map, getElem_range]
    rw [hcell j h2, writeRun_on h2]

theorem ringContents_add (m k : Nat) : ringContents buf size start (m + k) =
    ringContents buf size start m ++ ringContents buf size ((start + m) % size) k := by
  unfold ringContents
  rw [map_range_add]
  simp only [Nat.mod_add_mod, Nat.add_assoc]

theorem ringContents_eq_readRun_append (hend : start + n ≤ size) (hn : n ≤ used) :
    ringContents buf size start used =
      readRun buf start n ++ ringContents buf size ((start + n) % size) (used - n) := by
  obtain ⟨k, rfl⟩ := Nat.exists_eq_add_of_le hn
  rw [ringContents_add, Nat.add_sub_cancel_left]
  congr 1
  refine map_congr_left fun i hi => ?_
  have hi := mem_range.mp hi
  rw [Nat.mod_eq_of_lt (by omega)]

theorem ringContents_concat (hused : used < size) (x : A) :
    ringContents (update buf ((start + used) % size) x) size start (used + 1) =
      ringContents buf size start used ++ [x] := by
  unfold ringContents
  rw [range_succ, map_append, map_singleton, update_self]
  congr 1
  refine map_congr_left fun i hi => update_of_ne ?_ _ _
  have hi := mem_range.mp hi
  intro he
  have := cell_inj he (by omega) hused
  omega

theorem wrap_eq_mod (h : n ≤ size) : (if n = size then 0 else n) = n % size := by
  split_ifs with he
  · rw [he, Nat.mod_self]
  · rw [Nat.mod_eq_of_lt (by omega)]

theorem two_rounds {i k avail : Nat} (hi : i ≤ size) (ha : avail ≤ size)
    (hk : min avail (size - i) = k) : k + min (avail - k) (size - (i + k) % size) = avail := by
  rcases Nat.lt_or_ge (i + k) size with hlt | hge
  · obtain rfl : avail = k := by omega
    rw [Nat.sub_self, Nat.zero_min, Nat.add_zero]
  · rw [show i + k = size by omega, Nat.mod_self]
    omega

end Zephyr
