import Mathlib

/-! The division by five of `prf.c`. Each round divides the upper 32 bits of what is left. -/

namespace Zephyr.Prf

def shifts : List Nat := [32, 3, 0]

/-- A round of the loop of `_ldiv5`, on `rem` and `quot`. -/
def divRound (s : BitVec 64 × BitVec 64) (shift : Nat) : BitVec 64 × BitVec 64 :=
  let hi := (s.1 >>> shift).setWidth 32
  let q := (hi / 5).setWidth 64 <<< shift
  (s.1 - q * 5, s.2 + q)

def rounds (v : BitVec 64) (i : Nat) : BitVec 64 × BitVec 64 :=
  (shifts.take i).foldl divRound (v + 2, 0)

def ldiv5 (v : BitVec 64) : BitVec 64 := (rounds v shifts.length).2

theorem divRound_spec {s : BitVec 64 × BitVec 64} {shift n : Nat} (hn : n < 2 ^ 64)
    (hsum : 5 * s.2.toNat + s.1.toNat = n) (hfits : s.1.toNat < 2 ^ shift * 2 ^ 32) :
    5 * (divRound s shift).2.toNat + (divRound s shift).1.toNat = n ∧
      (divRound s shift).1.toNat < 2 ^ shift * 5 := by
  obtain ⟨rem, quot⟩ := s
  have hhi : rem.toNat / 2 ^ shift < 2 ^ 32 := Nat.div_lt_of_lt_mul hfits
  have hrem := Nat.div_add_mod rem.toNat (2 ^ shift)
  have hlow := Nat.mod_lt rem.toNat (Nat.two_pow_pos shift)
  generalize heq : rem.toNat / 2 ^ shift = hi at hhi hrem
  have hdigit : 2 ^ shift * hi = 5 * (2 ^ shift * (hi / 5)) + 2 ^ shift * (hi % 5) := by
    rw [Nat.mul_left_comm, ← Nat.mul_add, Nat.div_add_mod]
  have hrest : 2 ^ shift * (hi % 5) ≤ 2 ^ shift * 4 := Nat.mul_le_mul_left _ (by omega)
  have hq : (((rem >>> shift).setWidth 32 / 5).setWidth 64 <<< shift).toNat =
      2 ^ shift * (hi / 5) := by
    rw [BitVec.toNat_shiftLeft, BitVec.toNat_setWidth, BitVec.toNat_udiv, BitVec.toNat_setWidth,
      BitVec.toNat_ushiftRight, Nat.shiftRight_eq_div_pow, heq, Nat.mod_eq_of_lt hhi,
      Nat.shiftLeft_eq, Nat.mul_comm]
    show 2 ^ shift * (hi / 5 % 2 ^ 64) % 2 ^ 64 = _
    rw [Nat.mod_eq_of_lt (show hi / 5 < 2 ^ 64 by omega), Nat.mod_eq_of_lt (by omega)]
  simp only [divRound] at hsum ⊢
  generalize ((rem >>> shift).setWidth 32 / 5).setWidth 64 <<< shift = q at hq
  have hmul : (q * 5).toNat = q.toNat * 5 := BitVec.toNat_mul_of_lt (by
    show q.toNat * 5 < 2 ^ 64
    omega)
  rw [BitVec.toNat_add_of_lt (by omega), BitVec.toNat_sub_of_le (BitVec.le_def.mpr (by omega)),
    hmul]
  omega

/-- No digit of the quotient is lost: in each round the shifted remainder has 32 bits. -/
theorem ldiv5_right (v : BitVec 64) (hv : v.toNat < 2 ^ 64 - 2) :
    (ldiv5 v).toNat = (v.toNat + 2) / 5 ∧
      ∀ p ∈ shifts.zipIdx, ((rounds v p.2).1 >>> p.1).toNat < 2 ^ 32 := by
  have hn : v.toNat + 2 < 2 ^ 64 := by omega
  have h0 : (rounds v 0).1.toNat = v.toNat + 2 := BitVec.toNat_add_of_lt hn
  have hfits0 : (rounds v 0).1.toNat < 2 ^ 32 * 2 ^ 32 := by omega
  obtain ⟨hsum1, hlt1⟩ := divRound_spec hn (h0 ▸ Nat.zero_add _) hfits0
  have hfits1 : (rounds v 1).1.toNat < 2 ^ 3 * 2 ^ 32 := Nat.lt_trans hlt1 (by decide)
  obtain ⟨hsum2, hlt2⟩ := divRound_spec hn hsum1 hfits1
  have hfits2 : (rounds v 2).1.toNat < 2 ^ 0 * 2 ^ 32 := Nat.lt_trans hlt2 (by decide)
  obtain ⟨hsum3, hlt3⟩ := divRound_spec (s := rounds v 2) hn hsum2 hfits2
  have hbits : ∀ {x : BitVec 64} {shift : Nat}, x.toNat < 2 ^ shift * 2 ^ 32 →
      (x >>> shift).toNat < 2 ^ 32 := by
    intro x shift hx
    rw [BitVec.toNat_ushiftRight, Nat.shiftRight_eq_div_pow]
    exact Nat.div_lt_of_lt_mul hx
  constructor
  · show (divRound (rounds v 2) 0).2.toNat = _
    omega
  · simp only [shifts, List.zipIdx_cons, List.zipIdx_nil, List.forall_mem_cons]
    exact ⟨hbits hfits0, hbits hfits1, hbits hfits2, nofun⟩

theorem ldiv5_right_max : (18446744073709551613#64).toNat < 2 ^ 64 - 2 ∧
    (ldiv5 18446744073709551613).toNat = 3689348814741910323 := by
  have h := (ldiv5_right 18446744073709551613 (by decide)).1
  exact ⟨by decide, h⟩

end Zephyr.Prf
