import Zephyr.WaitQ

/-! One side of an exchange: its calls are numbered, those that wait stand in a queue, and each is
matched at most once with a call of the other side. -/

namespace Zephyr

open Function List

variable {W C : Type} {n : Nat} {q : List W} {call : W → Option C} {idOf : C → Nat}
  {waits : C → Prop} {matched : List Nat} {prio : W → Int} {w : W} {c : C}

structure Waiters (n : Nat) (q : List W) (call : W → Option C) (idOf : C → Nat) (waits : C → Prop)
    (matched : List Nat) : Prop where
  nodup : q.Nodup
  mem : ∀ w, w ∈ q ↔ ∃ c, call w = some c ∧ waits c
  lt : ∀ w c, call w = some c → idOf c < n
  inj : ∀ w w' c c', call w = some c → call w' = some c' → idOf c = idOf c' → w = w'
  matchedLt : ∀ i ∈ matched, i < n
  matchedNodup : matched.Nodup
  unmatched : ∀ w c, call w = some c → waits c → idOf c ∉ matched
  isMatched : ∀ w c, call w = some c → ¬ waits c → idOf c ∈ matched

theorem Waiters.not_mem (h : Waiters n q call idOf waits matched) (hw : call w = none) : w ∉ q := by
  intro hm
  obtain ⟨c, hc, -⟩ := (h.mem w).mp hm
  simp [hw] at hc

theorem Waiters.newCall (h : Waiters n q call idOf waits matched) :
    Waiters (n + 1) q call idOf waits matched :=
  { h with
    lt := fun w c hc => Nat.lt_succ_of_lt (h.lt w c hc)
    matchedLt := fun i hi => Nat.lt_succ_of_lt (h.matchedLt i hi) }

variable [DecidableEq W]

section

variable (h : Waiters n q call idOf waits matched)
include h

theorem Waiters.pend (hw : call w = none) (hc : waits c) (hid : idOf c = n) :
    Waiters (n + 1) (pendThread prio w q) (update call w (some c)) idOf waits matched := by
  have hq := h.not_mem hw
  obtain ⟨h1, h2, h3, h4, h5, h6, h7, h8⟩ := h
  constructor
  case nodup => exact nodup_pendThread h1 hq
  all_goals grind [update_apply, mem_pendThread]

theorem Waiters.pairOff (hw : call w = some c)
    (hc : waits c) (c' : C) (hc' : ¬ waits c') (hid : idOf c' = idOf c) :
    Waiters n (q.erase w) (update call w (some c')) idOf waits (matched ++ [idOf c]) := by
  obtain ⟨h1, h2, h3, h4, h5, h6, h7, h8⟩ := h
  constructor
  case nodup => exact h1.erase w
  case matchedNodup =>
    rw [nodup_append_comm]
    exact List.nodup_cons.mpr ⟨h7 w c hw hc, h6⟩
  all_goals grind [update_apply, h1.mem_erase_iff]

theorem Waiters.leave : Waiters n (q.erase w) (update call w none) idOf waits matched := by
  obtain ⟨h1, h2, h3, h4, h5, h6, h7, h8⟩ := h
  constructor
  case nodup => exact h1.erase w
  all_goals grind [update_apply, h1.mem_erase_iff]

theorem Waiters.leave_of_matched (hw : call w = some c)
    (hc : ¬ waits c) : Waiters n q (update call w none) idOf waits matched := by
  have hq : w ∉ q := by
    intro hm
    obtain ⟨_, hc', hwait⟩ := (h.mem w).mp hm
    rw [hw, Option.some_inj] at hc'
    exact hc (hc' ▸ hwait)
  rw [← erase_of_not_mem hq]
  exact h.leave

end

theorem erase_pendThread (hq : w ∉ q) : (pendThread prio w q).erase w = q := by
  induction q with
  | nil => simp [pendThread]
  | cons x q ih =>
    obtain ⟨hx, hq⟩ := not_or.mp (mt List.mem_cons.mpr hq)
    unfold pendThread
    split_ifs
    · exact erase_cons_head ..
    · rw [erase_cons_tail (by simpa using Ne.symm hx), ih hq]

end Zephyr
