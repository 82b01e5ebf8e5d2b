import Mathlib

/-! Reading and overwriting a list at an offset, and memory as a function of the address. A list
that holds two texts in a row holds each of them at its own offset, and writing in pieces, one
behind the other, is writing once. -/

namespace Zephyr

open List

variable {A : Type*} {l x y : List A} {off : Nat}

def slice (l : List A) (off n : Nat) : List A := (l.drop off).take n

def writeAt (l : List A) (off : Nat) (x : List A) : List A :=
  l.take off ++ x ++ l.drop (off + x.length)

def HoldsAt (l : List A) (off : Nat) (x : List A) : Prop := x <+: l.drop off

theorem slice_length {n : Nat} (h : off + n ≤ l.length) : (slice l off n).length = n := by
  rw [slice, length_take, length_drop]
  omega

theorem slice_append (l : List A) (off m n : Nat) :
    slice l off m ++ slice l (off + m) n = slice l off (m + n) := by
  rw [slice, slice, slice, take_add, drop_drop]

theorem slice_append_drop (l : List A) (off n : Nat) :
    slice l off n ++ l.drop (off + n) = l.drop off := by
  rw [slice, ← drop_drop, take_append_drop]

theorem slice_one {d : A} (h : off < l.length) : slice l off 1 = [l.getD off d] := by
  rw [slice, drop_eq_getElem_cons h, take_succ_cons, take_zero,
    getD_eq_getElem?_getD, getElem?_eq_getElem h, Option.getD_some]

theorem holdsAt_append :
    HoldsAt l off (x ++ y) ↔ HoldsAt l off x ∧ HoldsAt l (off + x.length) y := by
  constructor
  · rintro ⟨t, ht⟩
    refine ⟨⟨y ++ t, by rw [← ht, append_assoc]⟩, t, ?_⟩
    rw [← drop_drop, ← ht, append_assoc, drop_left]
  · rintro ⟨⟨t, ht⟩, hy⟩
    rw [HoldsAt, ← drop_drop, ← ht, drop_left] at hy
    rw [HoldsAt, ← ht]
    exact prefix_append_right_inj x |>.mpr hy

theorem holdsAt_cons {a : A} : HoldsAt l off (a :: x) ↔ HoldsAt l off [a] ∧ HoldsAt l (off + 1) x :=
  holdsAt_append (x := [a])

theorem HoldsAt.slice_eq (h : HoldsAt l off x) : slice l off x.length = x :=
  (prefix_iff_eq_take.mp h).symm

theorem HoldsAt.getD_eq {a d : A} (h : HoldsAt l off [a]) : l.getD off d = a := by
  obtain ⟨t, ht⟩ := h
  have hhead : (l.drop off)[0]? = some a := by rw [← ht]; rfl
  rw [getElem?_drop, Nat.add_zero] at hhead
  rw [getD_eq_getElem?_getD, hhead, Option.getD_some]

theorem writeAt_append {m t : List A} (hl : l.length = off) (hx : x.length = m.length) :
    writeAt (l ++ (m ++ t)) off x = l ++ (x ++ t) := by
  rw [writeAt, ← hl, take_left, hx, ← drop_drop, drop_left, drop_left, append_assoc]

variable {m : Nat → A} {addr a n k : Nat}

def load (m : Nat → A) (addr n : Nat) : List A := (range n).map fun i => m (addr + i)

def store (m : Nat → A) (addr : Nat) (x : List A) : Nat → A := fun a =>
  if addr ≤ a then x[a - addr]?.getD (m a) else m a

@[simp] theorem load_length : (load m addr n).length = n := by simp [load]

theorem getElem?_load : (load m addr n)[k]? = if k < n then some (m (addr + k)) else none := by
  rw [load, getElem?_map]
  split
  · next hlt => rw [getElem?_range hlt, Option.map_some]
  · next hge => rw [getElem?_eq_none (by simpa using hge), Option.map_none]

theorem load_add (m : Nat → A) (addr n k : Nat) :
    load m addr (n + k) = load m addr n ++ load m (addr + n) k := by
  rw [load, range_add, map_append, map_map]
  simp only [load, Function.comp_def, Nat.add_assoc]

theorem load_congr {m' : Nat → A} (h : ∀ a, addr ≤ a → a < addr + n → m a = m' a) :
    load m addr n = load m' addr n :=
  map_congr_left fun i hi => h _ (Nat.le_add_right ..) (by
    have := mem_range.mp hi
    omega)

theorem store_of_mem (hle : addr ≤ a) (hlt : a < addr + x.length) :
    store m addr x a = x.get ⟨a - addr, by omega⟩ := by
  rw [store, if_pos hle, getElem?_eq_getElem (by omega)]
  rfl

theorem store_of_not_mem (h : a < addr ∨ addr + x.length ≤ a) : store m addr x a = m a := by
  rw [store]
  split
  · next hle => rw [getElem?_eq_none (by omega), Option.getD_none]
  · rfl

@[simp] theorem store_nil (m : Nat → A) (addr : Nat) : store m addr [] = m := by
  funext a
  exact store_of_not_mem (by rw [length_nil]; omega)

theorem store_append (m : Nat → A) (addr : Nat) (x y : List A) :
    store (store m addr x) (addr + x.length) y = store m addr (x ++ y) := by
  funext a
  by_cases hlow : a < addr
  · rw [store_of_not_mem (by omega), store_of_not_mem (by omega), store_of_not_mem (by omega)]
  · have hle := Nat.not_lt.mp hlow
    by_cases hx : a < addr + x.length
    · rw [store_of_not_mem (by omega)]
      simp only [store, getElem?_append_left (by omega : a - addr < x.length)]
    · have hle' := Nat.not_lt.mp hx
      have hsub : a - addr - x.length = a - (addr + x.length) := by omega
      rw [store, if_pos hle', store_of_not_mem (.inr hle'), store, if_pos hle,
        getElem?_append_right (by omega), hsub]

theorem store_store (h : y.length = x.length) : store (store m addr x) addr y = store m addr y := by
  funext a
  by_cases hout : a < addr ∨ addr + x.length ≤ a
  · rw [store_of_not_mem (by omega), store_of_not_mem hout, store_of_not_mem (by omega)]
  · rw [store_of_mem (by omega) (by omega), store_of_mem (by omega) (by omega)]

theorem store_load (m : Nat → A) (addr n : Nat) : store m addr (load m addr n) = m := by
  funext a
  by_cases hle : addr ≤ a
  · rw [store, if_pos hle, getElem?_load]
    split
    · rw [Option.getD_some, Nat.add_sub_cancel' hle]
    · rfl
  · rw [store, if_neg hle]

theorem load_store_of_le (h : addr + x.length ≤ a) : load (store m addr x) a n = load m a n :=
  load_congr fun _ hle _ => store_of_not_mem (.inr (by omega))

theorem load_store_same (m : Nat → A) (addr : Nat) (x : List A) :
    load (store m addr x) addr x.length = x := by
  refine ext_getElem? fun i => ?_
  rw [getElem?_load]
  split
  · next hlt =>
    rw [store_of_mem (Nat.le_add_right ..) (by omega)]
    simp
  · next hge => rw [getElem?_eq_none (Nat.not_lt.mp hge)]

theorem store_writeAt_load (h : off + x.length ≤ n) :
    store m addr (writeAt (load m addr n) off x) = store m (addr + off) x := by
  have hsplit : n = off + (x.length + (n - (off + x.length))) := by omega
  have htake : (load m addr n).take off = load m addr off := by
    rw [hsplit, load_add]
    exact take_left' load_length
  have hdrop : (load m addr n).drop (off + x.length) =
      load m (addr + (off + x.length)) (n - (off + x.length)) := by
    rw [hsplit, ← Nat.add_assoc, load_add]
    exact (drop_left' load_length).trans (by congr 1; omega)
  have hlen : (load m addr off ++ x).length = off + x.length := by
    rw [length_append, load_length]
  have hrest : load m (addr + (off + x.length)) (n - (off + x.length)) =
      load (store m (addr + off) x) (addr + (off + x.length)) (n - (off + x.length)) :=
    (load_store_of_le (by omega)).symm
  have hfirst : store m addr (load m addr off ++ x) = store m (addr + off) x := by
    rw [← store_append, store_load, load_length]
  rw [writeAt, htake, hdrop, ← store_append, hlen, hfirst, hrest, store_load]

end Zephyr
