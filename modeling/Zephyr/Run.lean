import Mathlib

/-! Runs of partial step functions: an invariant of every step, or of the steps that meet a
condition, is one of the runs. An action that stays enabled until it is taken, and brings the goal
nearer by a well-founded rank, is what a fair infinite run comes to. -/

namespace Zephyr

variable {S A : Type*} {step : S → A → Option S} {P : S → Prop} {ok : S → A → Prop} {s t : S}

theorem run_invariant (hstep : ∀ s a t, P s → step s a = some t → P t) {acts : List A}
    (hs : P s) (h : acts.foldlM step s = some t) : P t := by
  induction acts generalizing s with
  | nil =>
    obtain rfl : s = t := by simpa using h
    exact hs
  | cons a acts ih =>
    obtain ⟨u, hu, ht⟩ := Option.bind_eq_some_iff.mp h
    exact ih (hstep s a u hs hu) ht

def GuardedStep (step : S → A → Option S) (ok : S → A → Prop) (s t : S) : Prop :=
  ∃ a, ok s a ∧ step s a = some t

abbrev GuardedRun (step : S → A → Option S) (ok : S → A → Prop) :=
  Relation.ReflTransGen (GuardedStep step ok)

theorem GuardedRun.imp {ok' : S → A → Prop} (h : GuardedRun step ok s t)
    (himp : ∀ s a, ok s a → ok' s a) : GuardedRun step ok' s t := by
  induction h with
  | refl => exact .refl
  | tail _ hst ih =>
    obtain ⟨a, ha, ht⟩ := hst
    exact ih.tail ⟨a, himp _ a ha, ht⟩

theorem GuardedRun.invariant (h : GuardedRun step ok s t)
    (hstep : ∀ s a t, P s → ok s a → step s a = some t → P t) (hs : P s) : P t := by
  induction h with
  | refl => exact hs
  | tail _ hst ih =>
    obtain ⟨a, ha, ht⟩ := hst
    exact hstep _ a _ ih ha ht

theorem GuardedRun.of_foldlM (step : S → A → Option S) (ok : S → A → Prop)
    [∀ s a, Decidable (ok s a)] (acts : List A)
    (h : acts.foldlM (fun s a => if ok s a then step s a else none) s = some t) :
    GuardedRun step ok s t := by
  induction acts generalizing s with
  | nil =>
    obtain rfl : s = t := by simpa using h
    exact .refl
  | cons a acts ih =>
    rw [List.foldlM_cons] at h
    obtain ⟨u, hu, ht⟩ := Option.bind_eq_some_iff.mp h
    split_ifs at hu with ha
    exact .head ⟨a, ha, hu⟩ (ih ht)

theorem GuardedRun.exists_becomes (h : GuardedRun step ok s t) (hs : ¬ P s) (ht : P t) :
    ∃ u a v, GuardedRun step ok s u ∧ ok u a ∧ step u a = some v ∧ ¬ P u ∧ P v ∧
      GuardedRun step ok v t := by
  induction h with
  | refl => exact absurd ht hs
  | @tail u v hsu huv ih =>
    by_cases hu : P u
    · obtain ⟨x, a, y, hx, ha, hy, hnx, hpy, hyu⟩ := ih hu
      exact ⟨x, a, y, hx, ha, hy, hnx, hpy, hyu.tail huv⟩
    · obtain ⟨a, ha, hv⟩ := huv
      exact ⟨u, a, v, hsu, ha, hv, hu, ht, .refl⟩

variable {R : Type*}

structure FairRun (step : S → A → Option S) (ok : S → A → Prop) (fair : A → Prop) where
  state : Nat → S
  act : Nat → Option A
  idle : ∀ n, act n = none → state (n + 1) = state n
  acts : ∀ n a, act n = some a → ok (state n) a ∧ step (state n) a = some (state (n + 1))
  justice : ∀ a, fair a → ∀ n, (∀ m, n ≤ m → (step (state m) a).isSome) →
    ∃ m, n ≤ m ∧ act m = some a

variable {step : S → A → Option S} {ok : S → A → Prop} {fair : A → Prop}

def Progress (goal P : S → Prop) (lt : R → R → Prop) (rank : S → R) (due : S → A) (s : S) (a : A)
    (s' : S) : Prop :=
  goal s' ∨ P s' ∧ (lt (rank s') (rank s) ∨ a ≠ due s ∧ rank s' = rank s ∧ due s' = due s)

theorem FairRun.eventually (r : FairRun step ok fair) (goal P : S → Prop) {lt : R → R → Prop}
    (wf : WellFounded lt) (rank : S → R) (due : S → A)
    (hdue : ∀ s, P s → fair (due s) ∧ (step s (due s)).isSome)
    (hstep : ∀ s a s', P s → ok s a → step s a = some s' → Progress goal P lt rank due s a s')
    {n : Nat} (hn : P (r.state n)) : ∃ m, n ≤ m ∧ goal (r.state m) := by
  induction h : rank (r.state n) using wf.induction generalizing n with
  | _ k ih =>
    subst h
    by_contra hgoal
    push Not at hgoal
    -- until the rank drops, it and the action that is due stay the same
    have hsame : ∀ i, P (r.state (n + i)) ∧ rank (r.state (n + i)) = rank (r.state n) ∧
        due (r.state (n + i)) = due (r.state n) := by
      intro i
      induction i with
      | zero => exact ⟨hn, rfl, rfl⟩
      | succ i hi =>
        obtain ⟨hP, hrank, hact⟩ := hi
        rw [← Nat.add_assoc]
        cases ha : r.act (n + i) with
        | none =>
          rw [r.idle _ ha]
          exact ⟨hP, hrank, hact⟩
        | some a =>
          obtain ⟨hok, hs⟩ := r.acts _ a ha
          rcases hstep _ a _ hP hok hs with hg | ⟨hP', hlt | ⟨-, hrank', hact'⟩⟩
          · exact absurd hg (hgoal _ (by omega))
          · obtain ⟨m, hm, hg⟩ := ih _ (hrank ▸ hlt) hP' rfl
            exact absurd hg (hgoal m (by omega))
          · exact ⟨hP', hrank'.trans hrank, hact'.trans hact⟩
    have henabled : ∀ m, n ≤ m → (step (r.state m) (due (r.state n))).isSome := by
      intro m hm
      obtain ⟨i, rfl⟩ := Nat.exists_eq_add_of_le hm
      obtain ⟨hP, -, hact⟩ := hsame i
      exact hact ▸ (hdue _ hP).2
    obtain ⟨m, hm, ha⟩ := r.justice _ (hdue _ hn).1 n henabled
    obtain ⟨i, rfl⟩ := Nat.exists_eq_add_of_le hm
    obtain ⟨hP, hrank, hact⟩ := hsame i
    obtain ⟨hok, hs⟩ := r.acts _ _ ha
    rcases hstep _ _ _ hP hok hs with hg | ⟨hP', hlt | ⟨hne, -, -⟩⟩
    · exact hgoal _ (by omega) hg
    · obtain ⟨m, hm, hg⟩ := ih _ (hrank ▸ hlt) hP' rfl
      exact hgoal m (by omega) hg
    · exact hne hact.symm

end Zephyr
