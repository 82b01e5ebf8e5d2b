import Mathlib

/-! A bounded queue as a machine on lists. What has come out and then what is inside are, in order,
what was put in and was not purged. -/

namespace Zephyr

variable {M : Type*} {cap : Nat}

inductive FifoOp (M : Type*) where
  | put (m : M)
  | get
  | purge

structure Fifo (M : Type*) where
  queue : List M
  out : List M

def Fifo.step (cap : Nat) (f : Fifo M) : FifoOp M → Option (Fifo M)
  | .put m => if f.queue.length < cap then some ⟨f.queue ++ [m], f.out⟩ else none
  | .get =>
    match f.queue with
    | [] => none
    | m :: queue => some ⟨queue, f.out ++ [m]⟩
  | .purge => some ⟨[], f.out⟩

def Fifo.run (cap : Nat) (ops : List (FifoOp M)) : Option (Fifo M) := ops.foldlM (step cap) ⟨[], []⟩

theorem Fifo.run_append (ops ops' : List (FifoOp M)) :
    run cap (ops ++ ops') = (run cap ops).bind (ops'.foldlM (step cap)) :=
  List.foldlM_append ..

def surviveStep (a : List M × Nat) : FifoOp M → List M × Nat
  | .put m => (a.1 ++ [m], a.2)
  | .get => (a.1, a.2 + 1)
  | .purge => (a.1.take a.2, a.2)

def survivors (ops : List (FifoOp M)) : List M := (ops.foldl surviveStep ([], 0)).1

theorem Fifo.step_survive {f g : Fifo M} {op : FifoOp M} {a : List M × Nat}
    (h : f.step cap op = some g) (ha : f.out ++ f.queue = a.1 ∧ f.out.length = a.2) :
    g.out ++ g.queue = (surviveStep a op).1 ∧ g.out.length = (surviveStep a op).2 := by
  obtain ⟨h1, h2⟩ := ha
  cases op with
  | put m =>
    simp only [step] at h
    split_ifs at h
    cases h
    simp [surviveStep, ← h1, h2]
  | get =>
    simp only [step] at h
    split at h
    · cases h
    · rename_i m queue hq
      cases h
      simp [surviveStep, ← h1, h2, hq]
  | purge =>
    cases h
    simp [surviveStep, ← h1, ← h2]

theorem Fifo.out_append_queue {ops : List (FifoOp M)} {f : Fifo M} (h : run cap ops = some f) :
    f.out ++ f.queue = survivors ops := by
  suffices key : ∀ (ops : List (FifoOp M)) (g : Fifo M) (a : List M × Nat),
      g.out ++ g.queue = a.1 ∧ g.out.length = a.2 → ops.foldlM (step cap) g = some f →
      f.out ++ f.queue = (ops.foldl surviveStep a).1 from
    key ops ⟨[], []⟩ ([], 0) ⟨rfl, rfl⟩ h
  intro ops
  induction ops with
  | nil =>
    intro g a ha hg
    cases hg
    exact ha.1
  | cons op ops ih =>
    intro g a ha hg
    obtain ⟨g', hstep, hg⟩ := Option.bind_eq_some_iff.mp hg
    exact ih g' _ (step_survive hstep ha) hg

end Zephyr
