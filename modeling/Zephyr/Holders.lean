import Mathlib

/-! Things that are held: each by one call in progress, or by whoever a call has handed it to. -/

namespace Zephyr

open Function

variable {T B : Type} {held owned : List B} {blk : T → Option B} {t : T} {b : B}

structure Holders (held owned : List B) (blk : T → Option B) : Prop where
  nodup : held.Nodup
  mem : ∀ t b, blk t = some b → b ∈ held
  inj : ∀ t u b, blk t = some b → blk u = some b → t = u
  ownedMem : ∀ b ∈ owned, b ∈ held
  apart : ∀ b ∈ owned, ∀ t, blk t ≠ some b
  ownedNodup : owned.Nodup

variable [DecidableEq T]

theorem Holders.gain (h : Holders held owned blk) (hb : (b :: held).Nodup) :
    Holders (b :: held) owned (update blk t (some b)) := by
  obtain ⟨h1, h2, h3, h4, h5, h6⟩ := h
  constructor
  case nodup => exact hb
  all_goals grind [update_apply]

theorem Holders.own (h : Holders held owned blk) (ht : blk t = some b) :
    Holders held (b :: owned) (update blk t none) := by
  obtain ⟨h1, h2, h3, h4, h5, h6⟩ := h
  constructor
  case ownedNodup => exact List.nodup_cons.mpr ⟨fun hm => h5 b hm t ht, h6⟩
  all_goals grind [update_apply]

variable [BEq B] [LawfulBEq B]

theorem Holders.disown (h : Holders held owned blk) (hb : b ∈ owned) :
    Holders held (owned.erase b) (update blk t (some b)) := by
  obtain ⟨h1, h2, h3, h4, h5, h6⟩ := h
  constructor
  case ownedNodup => exact h6.erase b
  all_goals grind [update_apply]

theorem Holders.drop (h : Holders held owned blk) (ht : blk t = some b) :
    Holders (held.erase b) owned (update blk t none) := by
  obtain ⟨h1, h2, h3, h4, h5, h6⟩ := h
  constructor
  case nodup => exact h1.erase b
  all_goals grind [update_apply]

theorem Holders.exchange {c : B} (h : Holders held owned blk) (ht : blk t = some b)
    (hc : (c :: held.erase b).Nodup) :
    Holders (c :: held.erase b) owned (update blk t (some c)) := by
  simpa using (h.drop ht).gain (t := t) hc

end Zephyr
