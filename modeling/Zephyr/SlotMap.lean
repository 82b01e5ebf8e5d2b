import Mathlib

/-! A map kept in slots, one entry in each at most and one slot for each key. -/

namespace Zephyr

open Function

variable {I K V : Type*} {slots : I → Option (K × V)} {m : K → Option V} {i : I} {k : K} {v : V}

structure Represents (slots : I → Option (K × V)) (m : K → Option V) : Prop where
  mem : ∀ k v, m k = some v ↔ ∃ i, slots i = some (k, v)
  inj : ∀ i j k v w, slots i = some (k, v) → slots j = some (k, w) → i = j

theorem represents_empty : Represents (fun _ : I => (none : Option (K × V))) fun _ => none where
  mem := by simp
  inj := nofun

theorem Represents.eq_none (h : Represents slots m) (hk : ∀ i v, slots i ≠ some (k, v)) :
    m k = none := by
  cases hm : m k with
  | none => rfl
  | some v =>
    obtain ⟨i, hi⟩ := (h.mem k v).mp hm
    exact absurd hi (hk i v)

variable [DecidableEq I] [DecidableEq K]

theorem Represents.erase (h : Represents slots m) (hi : slots i = some (k, v)) :
    Represents (update slots i none) (update m k none) where
  mem := by
    intro l w
    constructor
    · intro hw
      by_cases hl : l = k
      · rw [hl, update_self] at hw
        cases hw
      · rw [update_of_ne hl] at hw
        obtain ⟨j, hj⟩ := (h.mem l w).mp hw
        have hji : j ≠ i := by
          rintro rfl
          obtain ⟨rfl, -⟩ := Prod.mk.inj (Option.some.inj (hi.symm.trans hj))
          exact hl rfl
        exact ⟨j, by rw [update_of_ne hji, hj]⟩
    · rintro ⟨j, hj⟩
      by_cases hji : j = i
      · rw [hji, update_self] at hj
        cases hj
      · rw [update_of_ne hji] at hj
        have hl : l ≠ k := by
          rintro rfl
          exact hji (h.inj j i l w v hj hi)
        rw [update_of_ne hl]
        exact (h.mem l w).mpr ⟨j, hj⟩
  inj := by
    intro a b l w x ha hb
    by_cases hai : a = i
    · rw [hai, update_self] at ha
      cases ha
    by_cases hbi : b = i
    · rw [hbi, update_self] at hb
      cases hb
    rw [update_of_ne hai] at ha
    rw [update_of_ne hbi] at hb
    exact h.inj a b l w x ha hb

theorem Represents.insert (h : Represents slots m) (hi : slots i = none) (hk : m k = none) (v : V) :
    Represents (update slots i (some (k, v))) (update m k (some v)) where
  mem := by
    intro l w
    by_cases hl : l = k
    · subst hl
      rw [update_self]
      constructor
      · rintro ⟨⟩
        exact ⟨i, update_self ..⟩
      · rintro ⟨j, hj⟩
        by_cases hji : j = i
        · rw [hji, update_self] at hj
          exact congrArg some (Prod.mk.inj (Option.some.inj hj)).2
        · rw [update_of_ne hji] at hj
          exact absurd ((h.mem l w).mpr ⟨j, hj⟩) (by simp [hk])
    · rw [update_of_ne hl, h.mem]
      constructor
      · rintro ⟨j, hj⟩
        have hji : j ≠ i := by
          rintro rfl
          cases hi.symm.trans hj
        exact ⟨j, by rw [update_of_ne hji, hj]⟩
      · rintro ⟨j, hj⟩
        by_cases hji : j = i
        · rw [hji, update_self] at hj
          exact absurd (Prod.mk.inj (Option.some.inj hj)).1.symm hl
        · exact ⟨j, by rwa [update_of_ne hji] at hj⟩
  inj := by
    have hnot (j : I) (w : V) (hj : slots j = some (k, w)) : False := by
      cases hk.symm.trans ((h.mem k w).mpr ⟨j, hj⟩)
    intro a b l w x ha hb
    by_cases hai : a = i <;> by_cases hbi : b = i
    · rw [hai, hbi]
    · rw [hai, update_self] at ha
      rw [update_of_ne hbi] at hb
      obtain ⟨rfl, -⟩ := Prod.mk.inj (Option.some.inj ha)
      exact (hnot b x hb).elim
    · rw [hbi, update_self] at hb
      rw [update_of_ne hai] at ha
      obtain ⟨rfl, -⟩ := Prod.mk.inj (Option.some.inj hb)
      exact (hnot a w ha).elim
    · rw [update_of_ne hai] at ha
      rw [update_of_ne hbi] at hb
      exact h.inj a b l w x ha hb

end Zephyr
