import Mathlib

/-! Lists that store a due time as the distance from the entry before. A change of the base,
or of the entries in front, is absorbed by the first entry alone. -/

namespace Zephyr

variable {T : Type*}

/-- Each entry stores its due time less the due time of the entry before it, or less `base`. -/
def DeltaFrom (delta due : T → Int) : Int → List T → Prop
  | _, [] => True
  | base, t :: ts => delta t = due t - base ∧ 0 ≤ delta t ∧ DeltaFrom delta due (due t) ts

def lastDue (due : T → Int) : Int → List T → Int
  | base, [] => base
  | _, t :: ts => lastDue due (due t) ts

variable {delta delta' due due' : T → Int} {base base' : Int} {t : T} {ts u v : List T}

theorem DeltaFrom.congr (h : DeltaFrom delta due base ts) (hd : ∀ t ∈ ts, delta' t = delta t)
    (hu : ∀ t ∈ ts, due' t = due t) : DeltaFrom delta' due' base ts := by
  induction ts generalizing base with
  | nil => trivial
  | cons t ts ih =>
    obtain ⟨h1, h2, h3⟩ := h
    have hdt := hd t (by simp)
    have hut := hu t (by simp)
    refine ⟨by omega, by omega, ?_⟩
    rw [hut]
    exact ih h3 (fun x hx => hd x (by simp [hx])) (fun x hx => hu x (by simp [hx]))

theorem deltaFrom_append : DeltaFrom delta due base (u ++ v) ↔
    DeltaFrom delta due base u ∧ DeltaFrom delta due (lastDue due base u) v := by
  induction u generalizing base with
  | nil => simp [DeltaFrom, lastDue]
  | cons t u ih => simp only [List.cons_append, DeltaFrom, lastDue, ih, and_assoc]

theorem lastDue_append : lastDue due base (u ++ v) = lastDue due (lastDue due base u) v := by
  induction u generalizing base with
  | nil => rfl
  | cons t u ih => exact ih

section

variable (h : DeltaFrom delta due base ts)
include h

theorem DeltaFrom.base_le : ∀ t ∈ ts, base ≤ due t := by
  induction ts generalizing base with
  | nil => simp
  | cons t ts ih =>
    obtain ⟨h1, h2, h3⟩ := h
    intro x hx
    rcases List.mem_cons.mp hx with rfl | hx
    · omega
    · have := ih h3 x hx
      omega

theorem DeltaFrom.nonneg : ∀ t ∈ ts, 0 ≤ delta t := by
  induction ts generalizing base with
  | nil => simp
  | cons t ts ih =>
    intro x hx
    rcases List.mem_cons.mp hx with rfl | hx
    · exact h.2.1
    · exact ih h.2.2 x hx

theorem DeltaFrom.base_le_lastDue : base ≤ lastDue due base ts := by
  induction ts generalizing base with
  | nil => simp [lastDue]
  | cons t ts ih =>
    have := ih h.2.2
    have := h.1
    have := h.2.1
    rw [lastDue]
    omega

theorem DeltaFrom.sum_eq : (ts.map delta).sum = lastDue due base ts - base := by
  induction ts generalizing base with
  | nil => simp [lastDue]
  | cons t ts ih =>
    rw [List.map_cons, List.sum_cons, ih h.2.2, h.1, lastDue]
    omega

theorem DeltaFrom.rebase (hle : ∀ t ∈ ts.head?, base' ≤ due t)
    (hhead : ∀ t ∈ ts.head?, delta' t = due t - base') (htail : ∀ t ∈ ts.tail, delta' t = delta t) :
    DeltaFrom delta' due base' ts := by
  cases ts with
  | nil => trivial
  | cons t ts =>
    have h1 := hle t (by simp)
    have h2 := hhead t (by simp)
    exact ⟨h2, by omega, h.2.2.congr htail (fun _ _ => rfl)⟩

end

theorem DeltaFrom.insert (h : DeltaFrom delta due base (u ++ v)) (hlast : lastDue due base u ≤ due t)
    (hle : ∀ q ∈ v.head?, due t ≤ due q) (hdt : delta' t = due t - lastDue due base u)
    (hhead : ∀ q ∈ v.head?, delta' q = due q - due t) (hu : ∀ x ∈ u, delta' x = delta x)
    (hv : ∀ x ∈ v.tail, delta' x = delta x) : DeltaFrom delta' due base (u ++ t :: v) := by
  obtain ⟨h1, h2⟩ := deltaFrom_append.mp h
  exact deltaFrom_append.mpr ⟨h1.congr hu (fun _ _ => rfl), hdt, by omega, h2.rebase hle hhead hv⟩

theorem DeltaFrom.remove (h : DeltaFrom delta due base (u ++ t :: v))
    (hhead : ∀ q ∈ v.head?, delta' q = delta q + delta t) (hu : ∀ x ∈ u, delta' x = delta x)
    (hv : ∀ x ∈ v.tail, delta' x = delta x) : DeltaFrom delta' due base (u ++ v) := by
  obtain ⟨h1, ht, ht0, h2⟩ := deltaFrom_append.mp h
  refine deltaFrom_append.mpr ⟨h1.congr hu (fun _ _ => rfl), h2.rebase ?_ ?_ hv⟩
  · intro q hq
    have := h2.base_le q (List.mem_of_mem_head? hq)
    omega
  · intro q hq
    obtain ⟨x, rfl⟩ : ∃ x, v = q :: x := by
      cases v with
      | nil => simp at hq
      | cons a v => exact ⟨v, by simpa using hq⟩
    rw [hhead q hq, h2.1]
    omega

end Zephyr
