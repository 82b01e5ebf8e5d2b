import Zephyr.Run
import Zephyr.WaitQ

/-! A semaphore of `kernel/sem.c`. Nothing keeps the initial count of `k_sem_init` below the limit,
and a count that is above it never meets the test for equality with it. -/

namespace Zephyr.Sem

/-- The fields of `struct k_sem`; the last two count the calls of `k_sem_give` and the calls of
`k_sem_take` that have succeeded. -/
structure KSem (T : Type) where
  count : BitVec 32
  limit : BitVec 32
  waitQ : TimedQ T
  gives : Nat
  takes : Nat

inductive Act (T : Type) where
  | give
  | take (t : T) (wait : Bool)
  | reset
  | tick (e : Tick T)

variable {T : Type} [DecidableEq T]

/-- The system call handler of `k_sem_init`. -/
def kSemInit (initialCount limit : BitVec 32) : Option (KSem T) :=
  if limit ≠ 0 then some ⟨initialCount, limit, .empty, 0, 0⟩ else none

def incrementCountUpToLimit (sem : KSem T) : KSem T :=
  { sem with count := sem.count + if sem.count ≠ sem.limit then 1 else 0 }

def doSemGive (sem : KSem T) : KSem T :=
  match sem.waitQ.unpendFirst with
  | none => incrementCountUpToLimit sem
  | some (_, waitQ) => { sem with waitQ, takes := sem.takes + 1 }

def kSemTake (prio : T → Int) (sem : KSem T) (t : T) (wait : Bool) : KSem T :=
  if 0 < sem.count then { sem with count := sem.count - 1, takes := sem.takes + 1 }
  else if wait then { sem with waitQ := sem.waitQ.pend prio t }
  else sem

def step (prio : T → Int) (sem : KSem T) : Act T → Option (KSem T)
  | .give => some { doSemGive sem with gives := sem.gives + 1 }
  | .take t wait => if t ∈ sem.waitQ.waitQ then none else some (kSemTake prio sem t wait)
  | .reset => some { sem with count := 0 }
  | .tick e => (sem.waitQ.tick e).map fun waitQ => { sem with waitQ }

structure Right (initialCount : BitVec 32) (sem : KSem T) : Prop where
  limited : sem.count ≤ sem.limit
  waits : ∀ t, sem.waitQ.Waiting t → sem.count = 0
  takes : sem.takes ≤ initialCount.toNat + sem.gives

structure Inv (initialCount : BitVec 32) (sem : KSem T) : Prop where
  calm : sem.waitQ.Calm
  limited : sem.count ≤ sem.limit
  waits : ∀ t, sem.waitQ.Waiting t → sem.count = 0
  takes : sem.takes + sem.count.toNat ≤ initialCount.toNat + sem.gives

variable {prio : T → Int} {i limit : BitVec 32} {sem sem' : KSem T}

theorem Inv.give (h : Inv i sem) : Inv i { doSemGive sem with gives := sem.gives + 1 } := by
  have htakes := h.takes
  have hlimited := h.limited
  unfold doSemGive
  cases hfirst : sem.waitQ.unpendFirst with
  | none =>
    have hno := TimedQ.not_waiting hfirst
    refine ⟨h.calm, ?_, fun t ht => absurd ht (hno t), ?_⟩
    · simp only [incrementCountUpToLimit]
      split_ifs <;> bv_omega
    · simp only [incrementCountUpToLimit]
      split_ifs <;> bv_omega
  | some first =>
    obtain ⟨hcalm, hwaits, -⟩ := h.calm.unpend hfirst
    refine ⟨hcalm, h.limited, fun t ht => h.waits t (hwaits t ht), ?_⟩
    dsimp only
    omega

omit [DecidableEq T] in
theorem Inv.take (h : Inv i sem) (t : T) (wait : Bool) : Inv i (kSemTake prio sem t wait) := by
  have htakes := h.takes
  have hlimited := h.limited
  unfold kSemTake
  split_ifs with hcount
  · refine ⟨h.calm, ?_, fun x hx => ?_, ?_⟩
    · bv_omega
    · rw [h.waits x hx] at hcount
      exact absurd hcount (by decide)
    · bv_omega
  · have hzero : sem.count = 0 := by bv_omega
    exact ⟨h.calm.pend prio t, h.limited, fun _ _ => hzero, h.takes⟩
  · exact h

theorem Inv.step (h : Inv i sem) {a : Act T} (hstep : step prio sem a = some sem') :
    Inv i sem' := by
  cases a with
  | give => exact Option.some.inj hstep ▸ h.give
  | take t wait =>
    simp only [Sem.step] at hstep
    split_ifs at hstep
    exact Option.some.inj hstep ▸ h.take t wait
  | reset =>
    cases hstep
    have htakes := h.takes
    refine ⟨h.calm, ?_, fun _ _ => rfl, ?_⟩
    · dsimp only
      bv_omega
    · dsimp only
      bv_omega
  | tick e =>
    obtain ⟨q, htick, rfl⟩ := Option.map_eq_some_iff.mp hstep
    obtain ⟨hcalm, hwaits⟩ := h.calm.tick htick
    exact ⟨hcalm, h.limited, fun t ht => h.waits t (hwaits t ht), h.takes⟩

/-- Every run from `k_sem_init` counts right exactly when the initial count is within the limit. -/
theorem counts_right_iff (hinit : kSemInit i limit = some sem) :
    (∀ sem', GuardedRun (step prio) (fun _ _ => True) sem sem' → Right i sem') ↔ i ≤ limit := by
  unfold kSemInit at hinit
  split_ifs at hinit
  cases hinit
  refine ⟨fun h => (h _ .refl).limited, fun hle sem' hrun => ?_⟩
  have hinv : Inv i sem' := hrun.invariant (P := Inv i) (fun _ _ _ hs _ hstep => hs.step hstep)
    ⟨TimedQ.calm_empty, hle, nofun, by simp⟩
  exact ⟨hinv.limited, hinv.waits, Nat.le_of_add_right_le hinv.takes⟩

theorem binary_counts_right : Right 0 (⟨1, 1, .empty, 1, 0⟩ : KSem Unit) :=
  (@counts_right_iff _ _ (fun _ => 0) 0 1 _ rfl).mpr (by decide) _ (.single ⟨.give, trivial, rfl⟩)

theorem count_above_limit : ((kSemInit 2 1).bind fun sem : KSem Unit =>
    step (fun _ => 0) sem .give).map (fun sem => (sem.count, sem.limit)) = some (3, 1) := by
  rfl

end Zephyr.Sem
