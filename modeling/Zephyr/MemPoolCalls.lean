import Zephyr.WaitQ
import Zephyr.Holders
import Zephyr.MemPoolTiling

/-! The callers of `k_mem_pool_alloc` and `k_mem_pool_free`. Interrupts are unlocked between the
sections of a call. Its result strays when it loses the race for a block, or fails again in the very
tick of its deadline; blocks that become free between a failed attempt and the pend are missed. -/

namespace Zephyr.MemPool

local instance lawfulBEq_block : LawfulBEq (Nat × Nat) := inferInstance

def kNoWait : Int := 0
def kForever : Int := -1
def eAgain : Int := 11
def eNoMem : Int := 12

def s32 (x : Int) : Int := x.bmod (2 ^ 32)

def msToTicks (hz : Nat) (ms : Int) : Int := s32 ((ms * hz + (1000 - 1)) / 1000)

/-- The arguments and variables of `k_mem_pool_alloc`; `arg` is `timeout` as it was passed. -/
structure Request where
  size : Nat
  arg : Int
  timeout : Int
  deadline : Int
deriving DecidableEq

inductive Phase where
  | idle
  -- the walk of `pool_alloc`, before level `i`
  | scan (r : Request) (i : Nat) (allocL freeL : Option Nat)
  | take (r : Request) (allocL freeL : Nat)
  | split (r : Request) (allocL fromL blk : Nat)
  -- `pool_alloc` has returned -ENOMEM to a call that is going to pend
  | failed (r : Request)
  | pending (r : Request)
  -- `_Swap` has returned
  | woken (r : Request)
  | free (level bn : Nat)
  -- before `k_mem_pool_free` wakes the threads that wait
  | wake
deriving DecidableEq

structure Return (T : Type) where
  caller : T
  arg : Int
  deadline : Int
  tick : Int
  code : Int

/-- `owned` are the blocks that were allocated and not freed. -/
structure Sys (T : Type) where
  store : State
  tick : Int
  phase : T → Phase
  waitQ : List T
  owned : List (Nat × Nat)
  returned : List (Return T)

inductive Event (T : Type) where
  | alloc (t : T) (size : Nat) (timeout : Int)
  | free (t : T) (level bn : Nat)
  | run (t : T)
  | timeout (t : T)
  | tick

section

variable {T : Type} [DecidableEq T]

section

variable (p : KMemPool)

def initSys (links : Links Node) : Sys T :=
  ⟨initState p links, 0, fun _ => .idle, [], [], []⟩

variable (s : Sys T) (t : T)

def Sys.goTo (phase : Phase) : Sys T :=
  { s with phase := Function.update s.phase t phase }

variable (r : Request)

def Sys.ret (code : Int) : Sys T :=
  { s with
    phase := Function.update s.phase t .idle
    returned := s.returned ++ [⟨t, r.arg, r.deadline, s.tick, code⟩] }

def levelEmpty (s : Pool) (l : Nat) : Bool := sysDlistIsEmpty s.links (.freeList l)

def poolScan (i : Nat) (allocL freeL : Option Nat) : Sys T :=
  if i < p.nLevels ∧ ¬ lsizes p i < r.size then
    s.goTo t (.scan r (i + 1) (some i) (if levelEmpty s.store.pool i then freeL else some i))
  else match allocL, freeL with
    | some allocL, some freeL => s.goTo t (.take r allocL freeL)
    | _, _ => if r.timeout = kNoWait then s.ret t r (-eNoMem) else s.goTo t (.failed r)

def poolTake (allocL freeL : Nat) : Sys T :=
  match allocBlock p s.store.pool freeL with
  | (some blk, pool) =>
    let held := (freeL, blockNum p blk (lsizes p freeL)) :: s.store.held
    Sys.goTo { s with store := ⟨pool, held⟩ } t (.split r allocL freeL blk)
  | (none, pool) => Sys.ret { s with store := { s.store with pool } } t r (-eAgain)

def poolBreak (allocL fromL blk : Nat) : Sys T :=
  if fromL < allocL then
    let held := (fromL + 1, blockNum p blk (lsizes p (fromL + 1))) ::
      s.store.held.erase (fromL, blockNum p blk (lsizes p fromL))
    Sys.goTo { s with store := ⟨breakBlock p s.store.pool blk fromL, held⟩ } t
      (.split r allocL (fromL + 1) blk)
  else Sys.ret { s with owned := (allocL, blockNum p blk (lsizes p allocL)) :: s.owned } t r 0

def kMemPoolAlloc (hz : Nat) (s : Sys T) (t : T) (size : Nat) (timeout : Int) : Sys T :=
  let deadline := if 0 < timeout then s.tick + msToTicks hz timeout else 0
  s.goTo t (.scan ⟨size, timeout, timeout, deadline⟩ 0 none none)

def allocRetry : Sys T :=
  if r.timeout ≠ kForever then
    let timeout := s32 (r.deadline - s.tick)
    if timeout < 0 then s.ret t r (-eAgain) else s.goTo t (.scan { r with timeout } 0 none none)
  else s.goTo t (.scan r 0 none none)

def poolFree (level bn : Nat) : Sys T :=
  let (pool, rest) := freeBlock p s.store.pool level bn
  Sys.goTo { s with store := ⟨pool, rest.toList ++ s.store.held.erase (level, bn)⟩ } t
    (match rest with
      | some (level, bn) => .free level bn
      | none => .wake)

def Phase.ready : Phase → Phase
  | .pending r => .woken r
  | phase => phase

def poolWake : Sys T :=
  Sys.goTo { s with
    phase := fun u => if u ∈ s.waitQ then (s.phase u).ready else s.phase u
    waitQ := [] } t .idle

def run (prio : T → Int) (s : Sys T) (t : T) : Option (Sys T) :=
  match s.phase t with
  | .idle | .pending _ => none
  | .scan r i allocL freeL => poolScan p s t r i allocL freeL
  | .take r allocL freeL => poolTake p s t r allocL freeL
  | .split r allocL fromL blk => poolBreak p s t r allocL fromL blk
  | .failed r => Sys.goTo { s with waitQ := pendThread prio t s.waitQ } t (.pending r)
  | .woken r => allocRetry s t r
  | .free level bn => poolFree p s t level bn
  | .wake => poolWake s t

def next (hz : Nat) (prio : T → Int) (s : Sys T) : Event T → Option (Sys T)
  | .alloc t size timeout =>
    if s.phase t = .idle then kMemPoolAlloc hz s t size timeout else none
  | .free t level bn =>
    if s.phase t = .idle then
      Sys.goTo { s with owned := s.owned.erase (level, bn) } t (.free level bn)
    else none
  | .run t => run p prio s t
  | .timeout t => match s.phase t with
    | .pending r =>
      if r.timeout ≠ kForever then
        Sys.goTo { s with waitQ := s.waitQ.erase t } t (.woken r)
      else none
    | _ => none
  | .tick => some { s with tick := s.tick + 1 }

def Allowed : Event T → Prop
  | .alloc _ _ timeout => timeout = kForever ∨ 0 ≤ timeout
  | .free _ level bn => (level, bn) ∈ s.owned
  | _ => True

end

instance (s : Sys T) (e : Event T) : Decidable (Allowed s e) := by
  cases e <;> unfold Allowed <;> infer_instance

inductive Ran (p : KMemPool) (hz : Nat) (prio : T → Int) (s : Sys T) : Event T → Sys T → Prop
  | alloc (t : T) (size : Nat) (timeout : Int) (ht : s.phase t = .idle) :
    Ran p hz prio s (.alloc t size timeout) (kMemPoolAlloc hz s t size timeout)
  | free (t : T) (level bn : Nat) (ht : s.phase t = .idle) : Ran p hz prio s (.free t level bn)
      (Sys.goTo { s with owned := s.owned.erase (level, bn) } t (.free level bn))
  | scan (t : T) (r : Request) (i : Nat) (allocL freeL : Option Nat)
    (ht : s.phase t = .scan r i allocL freeL) :
    Ran p hz prio s (.run t) (poolScan p s t r i allocL freeL)
  | take (t : T) (r : Request) (allocL freeL : Nat) (ht : s.phase t = .take r allocL freeL) :
    Ran p hz prio s (.run t) (poolTake p s t r allocL freeL)
  | split (t : T) (r : Request) (allocL fromL blk : Nat)
    (ht : s.phase t = .split r allocL fromL blk) :
    Ran p hz prio s (.run t) (poolBreak p s t r allocL fromL blk)
  | pend (t : T) (r : Request) (ht : s.phase t = .failed r) : Ran p hz prio s (.run t)
      (Sys.goTo { s with waitQ := pendThread prio t s.waitQ } t (.pending r))
  | retry (t : T) (r : Request) (ht : s.phase t = .woken r) :
    Ran p hz prio s (.run t) (allocRetry s t r)
  | merge (t : T) (level bn : Nat) (ht : s.phase t = .free level bn) :
    Ran p hz prio s (.run t) (poolFree p s t level bn)
  | wake (t : T) (ht : s.phase t = .wake) : Ran p hz prio s (.run t) (poolWake s t)
  | expire (t : T) (r : Request) (ht : s.phase t = .pending r) : Ran p hz prio s (.timeout t)
      (Sys.goTo { s with waitQ := s.waitQ.erase t } t (.woken r))
  | tick : Ran p hz prio s .tick { s with tick := s.tick + 1 }

theorem ran_of_run {p : KMemPool} {hz : Nat} {prio : T → Int} {s s' : Sys T} {t : T}
    (h : run p prio s t = some s') : Ran p hz prio s (.run t) s' := by
  unfold run at h
  split at h <;> cases h
  next r i allocL freeL ht => exact .scan t r i allocL freeL ht
  next r allocL freeL ht => exact .take t r allocL freeL ht
  next r allocL fromL blk ht => exact .split t r allocL fromL blk ht
  next r ht => exact .pend t r ht
  next r ht => exact .retry t r ht
  next level bn ht => exact .merge t level bn ht
  next ht => exact .wake t ht

theorem ran_of_next {p : KMemPool} {hz : Nat} {prio : T → Int} {s s' : Sys T} {e : Event T}
    (h : next p hz prio s e = some s') : Ran p hz prio s e s' := by
  cases e with
  | alloc t size timeout =>
    simp only [next] at h
    split_ifs at h with ht
    cases h
    exact .alloc t size timeout ht
  | free t level bn =>
    simp only [next] at h
    split_ifs at h with ht
    cases h
    exact .free t level bn ht
  | run t => exact ran_of_run h
  | timeout t =>
    simp only [next] at h
    split at h
    next r ht =>
      split_ifs at h
      cases h
      exact .expire t r ht
    next => cases h
  | tick =>
    cases h
    exact .tick

variable {p : KMemPool} {hz : Nat} {prio : T → Int} {s s' : Sys T} {t : T} {r : Request}
  {e : Event T}

def Return.Conforms (x : Return T) : Prop :=
  (x.arg = kForever → x.code = 0) ∧ (x.arg = kNoWait → x.code = 0 ∨ x.code = -eNoMem) ∧
    (0 < x.arg → x.code = 0 ∨ x.code = -eAgain ∧ x.deadline < x.tick)

instance (x : Return T) : Decidable x.Conforms := by
  unfold Return.Conforms
  infer_instance

section

omit [DecidableEq T]

variable {x : Return T} (ha : x.arg = kForever ∨ x.arg = kNoWait ∨ 0 < x.arg)

include ha

theorem conforms_noMem_iff (hc : x.code = -eNoMem) : x.Conforms ↔ x.arg = kNoWait := by
  simp only [kForever, kNoWait] at ha
  simp only [Return.Conforms, hc, kForever, kNoWait, eNoMem, eAgain]
  grind

theorem conforms_again_iff (hc : x.code = -eAgain) :
    x.Conforms ↔ 0 < x.arg ∧ x.deadline < x.tick := by
  simp only [kForever, kNoWait] at ha
  simp only [Return.Conforms, hc, kForever, kNoWait, eNoMem, eAgain]
  grind

end

def Strays (p : KMemPool) (s : Sys T) : Event T → Prop
  | .run t => match s.phase t with
    | .take r _ freeL =>
      (allocBlock p s.store.pool freeL).1 = none ∧ ¬ (0 < r.arg ∧ r.deadline < s.tick)
    | .scan r i allocL freeL =>
      ¬ (i < p.nLevels ∧ ¬ lsizes p i < r.size) ∧ (allocL = none ∨ freeL = none) ∧
        r.timeout = kNoWait ∧ 0 < r.arg
    | _ => False
  | _ => False

instance (e : Event T) : Decidable (Strays p s e) := by
  unfold Strays
  split
  · split <;> infer_instance
  · infer_instance

structure Request.Ok (tick : Int) (r : Request) : Prop where
  arg : r.arg = kForever ∨ r.arg = kNoWait ∨ 0 < r.arg
  forever : r.arg = kForever → r.timeout = kForever
  noWait : r.arg = kNoWait → r.timeout = kNoWait
  timed : 0 < r.arg → 0 ≤ r.timeout ∧ r.deadline - tick < 2 ^ 31

def Phase.Ok (tick : Int) : Phase → Prop
  | .scan r _ _ _ | .take r _ _ | .split r _ _ _ => r.Ok tick
  | .failed r | .pending r | .woken r => r.Ok tick ∧ r.timeout ≠ kNoWait
  | .idle | .free _ _ | .wake => True

def CallsOk (phase : T → Phase) (tick : Int) : Prop := ∀ t, (phase t).Ok tick

theorem s32_lt (x : Int) : s32 x < 2 ^ 31 := Int.bmod_lt (by decide)

theorem s32_of_nonneg {x : Int} (h : 0 ≤ x) (hx : x < 2 ^ 31) : s32 x = x :=
  Int.bmod_eq_of_le (by omega) (by omega)

theorem neg_of_s32_neg {x : Int} (h : s32 x < 0) (hx : x < 2 ^ 31) : x < 0 := by
  by_contra hn
  rw [s32_of_nonneg (by omega) hx] at h
  omega

theorem Request.Ok.mono {tick tick' : Int} (h : r.Ok tick) (ht : tick ≤ tick') : r.Ok tick' :=
  ⟨h.arg, h.forever, h.noWait, fun hp => ⟨(h.timed hp).1, by have := (h.timed hp).2; omega⟩⟩

variable {ph : Phase}

theorem Phase.Ok.mono {tick tick' : Int} (h : ph.Ok tick) (ht : tick ≤ tick') : ph.Ok tick' := by
  cases ph with
  | scan | take | split => exact Request.Ok.mono h ht
  | failed | pending | woken => exact ⟨h.1.mono ht, h.2⟩
  | idle | free | wake => trivial

variable {tick : Int} {phase : T → Phase}

theorem Phase.Ok.ready (h : ph.Ok tick) : ph.ready.Ok tick := by
  cases ph <;> exact h

omit [DecidableEq T] in
theorem CallsOk.at (h : CallsOk phase tick) (ht : phase t = ph) : ph.Ok tick :=
  ht ▸ h t

theorem CallsOk.goTo (h : CallsOk phase tick)
    (hp : ph.Ok tick) : CallsOk (Function.update phase t ph) tick := by
  intro u
  rcases eq_or_ne u t with rfl | hu
  · simpa using hp
  · simpa [hu] using h u

theorem kMemPoolAlloc_ok (h : CallsOk s.phase s.tick) {size : Nat} {timeout : Int}
    (ht : timeout = kForever ∨ 0 ≤ timeout) :
    CallsOk (kMemPoolAlloc hz s t size timeout).phase s.tick := by
  refine h.goTo ⟨?_, id, id, fun hp => ⟨hp.le, ?_⟩⟩
  · simp only [kNoWait] at *
    omega
  · simp only [if_pos hp]
    have := s32_lt ((timeout * hz + (1000 - 1)) / 1000)
    simp only [msToTicks]
    omega

def Adds (s s' : Sys T) (stray : Prop) : Prop :=
  CallsOk s'.phase s'.tick ∧ (s'.returned = s.returned ∧ ¬ stray ∨
    ∃ x, s'.returned = s.returned ++ [x] ∧ (x.Conforms ↔ ¬ stray))

omit [DecidableEq T] in
theorem Request.Ok.not_forever (h : r.Ok tick) (ht : r.timeout ≠ kForever) : r.arg ≠ kForever :=
  fun ha => ht (h.forever ha)

section

variable (h : CallsOk s.phase s.tick)
include h

theorem poolScan_adds (hr : r.Ok s.tick) (i : Nat)
    (allocL freeL : Option Nat) : Adds s (poolScan p s t r i allocL freeL)
      (¬ (i < p.nLevels ∧ ¬ lsizes p i < r.size) ∧ (allocL = none ∨ freeL = none) ∧
        r.timeout = kNoWait ∧ 0 < r.arg) := by
  unfold poolScan
  by_cases hi : i < p.nLevels ∧ ¬ lsizes p i < r.size
  · rw [if_pos hi]
    exact ⟨h.goTo hr, .inl ⟨rfl, by simp [hi]⟩⟩
  · rw [if_neg hi]
    split
    next allocL freeL => exact ⟨h.goTo hr, .inl ⟨rfl, by simp⟩⟩
    next hnone =>
      have hor : allocL = none ∨ freeL = none := by
        rcases allocL with _ | a
        · exact .inl rfl
        · rcases freeL with _ | f
          · exact .inr rfl
          · exact (hnone a f rfl rfl).elim
      split_ifs with ht
      · refine ⟨h.goTo trivial, .inr ⟨_, rfl, ?_⟩⟩
        have hf : r.arg ≠ kForever := fun ha => by simp [hr.forever ha, kForever, kNoWait] at ht
        have harg := hr.arg
        rw [conforms_noMem_iff hr.arg rfl]
        simp only [hor, ht, true_and]
        simp only [kNoWait] at harg ⊢
        omega
      · exact ⟨h.goTo ⟨hr, ht⟩, .inl ⟨rfl, fun hs => ht hs.2.2.1⟩⟩

theorem poolTake_adds (hr : r.Ok s.tick) (allocL freeL : Nat) :
    Adds s (poolTake p s t r allocL freeL)
      ((allocBlock p s.store.pool freeL).1 = none ∧ ¬ (0 < r.arg ∧ r.deadline < s.tick)) := by
  unfold poolTake
  split
  next blk pool heq =>
    exact ⟨h.goTo hr, .inl ⟨rfl, by simp [heq]⟩⟩
  next pool heq =>
    refine ⟨h.goTo trivial, .inr ⟨_, rfl, ?_⟩⟩
    rw [conforms_again_iff hr.arg rfl]
    simp [heq]

theorem poolBreak_adds (hr : r.Ok s.tick) (allocL fromL blk : Nat) :
    Adds s (poolBreak p s t r allocL fromL blk) False := by
  unfold poolBreak
  split_ifs
  · exact ⟨h.goTo hr, .inl ⟨rfl, id⟩⟩
  · refine ⟨h.goTo trivial, .inr ⟨_, rfl, ?_⟩⟩
    simp [Return.Conforms]

theorem allocRetry_adds (hr : r.Ok s.tick) (ht : r.timeout ≠ kNoWait) :
    Adds s (allocRetry s t r) False := by
  unfold allocRetry
  split_ifs with hf
  · have hpos : 0 < r.arg := by
      rcases hr.arg with ha | ha | ha
      · exact absurd (hr.forever ha) hf
      · exact absurd (hr.noWait ha) ht
      · exact ha
    obtain ⟨-, hd⟩ := hr.timed hpos
    dsimp only
    split_ifs with hneg
    · refine ⟨h.goTo trivial, .inr ⟨_, rfl, ?_⟩⟩
      have hpast := neg_of_s32_neg hneg hd
      rw [conforms_again_iff hr.arg rfl]
      simp only [not_false_eq_true, iff_true]
      omega
    · refine ⟨h.goTo ⟨hr.arg, fun ha => absurd ha (hr.not_forever hf), fun ha => ?_, fun _ => ?_⟩,
        .inl ⟨rfl, id⟩⟩
      · exact absurd ha (by simp only [kNoWait]; omega)
      · exact ⟨Int.not_lt.mp hneg, hd⟩
  · exact ⟨h.goTo hr, .inl ⟨rfl, id⟩⟩

theorem poolWake_ok : CallsOk (poolWake s t).phase s.tick := by
  refine CallsOk.goTo (fun u => ?_) trivial
  dsimp only
  split_ifs
  · exact (h u).ready
  · exact h u

theorem next_adds (hok : Allowed s e)
    (hn : next p hz prio s e = some s') : Adds s s' (Strays p s e) := by
  cases ran_of_next hn with
  | alloc t size timeout ht => exact ⟨kMemPoolAlloc_ok h hok, .inl ⟨rfl, id⟩⟩
  | free t level bn ht => exact ⟨h.goTo trivial, .inl ⟨rfl, id⟩⟩
  | scan t r i allocL freeL ht =>
    simp only [Strays, ht]
    exact poolScan_adds h (h.at ht) i allocL freeL
  | take t r allocL freeL ht =>
    simp only [Strays, ht]
    exact poolTake_adds h (h.at ht) allocL freeL
  | split t r allocL fromL blk ht =>
    simp only [Strays, ht]
    exact poolBreak_adds h (h.at ht) allocL fromL blk
  | pend t r ht =>
    simp only [Strays, ht]
    have hok := h.at ht
    exact ⟨h.goTo hok, .inl ⟨rfl, id⟩⟩
  | retry t r ht =>
    simp only [Strays, ht]
    exact allocRetry_adds h (h.at ht).1 (h.at ht).2
  | merge t level bn ht =>
    simp only [Strays, ht]
    refine ⟨h.goTo ?_, .inl ⟨rfl, id⟩⟩
    split <;> trivial
  | wake t ht =>
    simp only [Strays, ht]
    exact ⟨poolWake_ok h, .inl ⟨rfl, id⟩⟩
  | expire t r ht =>
    have hok := h.at ht
    exact ⟨h.goTo hok, .inl ⟨rfl, id⟩⟩
  | tick => exact ⟨fun t => (h t).mono (by dsimp only; omega), .inl ⟨rfl, id⟩⟩

end

/-- While no step strays every result is the documented one, and the first that does returns
another. -/
theorem alloc_codes_iff {links : Links Node}
    (hrun : GuardedRun (next p hz prio) (fun s e => Allowed s e ∧ ¬ Strays p s e)
      (initSys p links) s) :
    (∀ x ∈ s.returned, x.Conforms) ∧ ∀ e s', Allowed s e → next p hz prio s e = some s' →
      ((∀ x ∈ s'.returned, x.Conforms) ↔ ¬ Strays p s e) := by
  have hstep : ∀ {s s' : Sys T} {e}, CallsOk s.phase s.tick → (∀ x ∈ s.returned, x.Conforms) →
      Allowed s e → next p hz prio s e = some s' →
      CallsOk s'.phase s'.tick ∧ ((∀ x ∈ s'.returned, x.Conforms) ↔ ¬ Strays p s e) := by
    intro s s' e hc hr hok hn
    obtain ⟨hc', ⟨heq, hs⟩ | ⟨x, heq, hx⟩⟩ := next_adds hc hok hn
    · exact ⟨hc', heq ▸ iff_of_true hr hs⟩
    · refine ⟨hc', ?_⟩
      rw [heq, List.forall_mem_append, ← hx]
      exact ⟨fun h => h.2 x List.mem_cons_self,
        fun h => ⟨hr, fun y hy => List.mem_singleton.mp hy ▸ h⟩⟩
  obtain ⟨hc, hr⟩ : CallsOk s.phase s.tick ∧ ∀ x ∈ s.returned, x.Conforms := by
    have hinit : CallsOk (initSys p links : Sys T).phase 0 := fun _ => trivial
    refine hrun.invariant (P := fun s => CallsOk s.phase s.tick ∧ ∀ x ∈ s.returned, x.Conforms)
      ?_ ⟨hinit, by simp [initSys]⟩
    rintro s e s' ⟨hc, hr⟩ ⟨hok, hs⟩ hn
    obtain ⟨hc', hiff⟩ := hstep hc hr hok hn
    exact ⟨hc', hiff.mpr hs⟩
  exact ⟨hr, fun e s' hok hn => (hstep hc hr hok hn).2⟩

theorem alloc_codes_iff_race : ∃ s s' : Sys (Fin 2), (∀ x ∈ s.returned, x.Conforms) ∧
      next (kMemPoolDefine 0 64 64 1) 100 (fun _ => 0) s (.run 1) = some s' ∧
      ¬ ∀ x ∈ s'.returned, x.Conforms := by
  have hrun : GuardedRun (next (kMemPoolDefine 0 64 64 1) 100 fun _ => 0)
      (fun s e => Allowed s e ∧ ¬ Strays (kMemPoolDefine 0 64 64 1) s e)
      (initSys (kMemPoolDefine 0 64 64 1) ⟨id, id⟩ : Sys (Fin 2)) _ :=
    .of_foldlM _ _ [.alloc 0 64 kForever, .alloc 1 64 kForever, .run 0, .run 0, .run 1, .run 1,
      .run 0, .run 0] rfl
  obtain ⟨hr, hiff⟩ := alloc_codes_iff hrun
  exact ⟨_, _, hr, rfl, fun h => (hiff (.run 1) _ trivial rfl).mp h (by decide)⟩

/-- A call that waits forever returns -EAGAIN after a lost race, and one with a timeout of ten
milliseconds returns -ENOMEM when it is woken in the tick of its deadline and the block is gone. -/
theorem alloc_returns_other_codes :
    (∃ s : Sys (Fin 2), [Event.alloc 0 64 kForever, .alloc 1 64 kForever, .run 0, .run 0, .run 1,
        .run 1, .run 0, .run 0, .run 1].foldlM
        (fun s e => if Allowed s e then
          next (kMemPoolDefine 0 64 64 1) 100 (fun _ => 0) s e else none)
        (initSys (kMemPoolDefine 0 64 64 1) ⟨id, id⟩) = some s ∧
      s.returned.getLast? = some ⟨1, kForever, 0, 0, -eAgain⟩) ∧
    ∃ s : Sys (Fin 3), [Event.alloc 0 64 kNoWait, .run 0, .run 0, .run 0, .run 0, .alloc 1 64 10,
        .run 1, .run 1, .run 1, .tick, .free 0 0 0, .run 0, .run 0, .alloc 2 64 kNoWait, .run 2,
        .run 2, .run 2, .run 2, .run 1, .run 1, .run 1].foldlM
        (fun s e => if Allowed s e then
          next (kMemPoolDefine 0 64 64 1) 100 (fun _ => 0) s e else none)
        (initSys (kMemPoolDefine 0 64 64 1) ⟨id, id⟩) = some s ∧
      s.returned.getLast? = some ⟨1, 10, 1, 1, -eNoMem⟩ ∧
      ¬ ∀ x ∈ s.returned, x.Conforms :=
  ⟨⟨_, rfl, rfl⟩, _, rfl, rfl, by decide⟩

end

open Function

variable {T : Type} {p : KMemPool} {hz : Nat} {prio : T → Int} {s s' : Sys T} {t u : T}
  {r : Request} {e : Event T} {fl : Nat → List Nat} {l : Nat}

theorem Inv.held_nodup (hp : ExactPool p) {s : State} (hi : Inv p fl s) : s.held.Nodup := by
  have hpos : ∀ b ∈ s.held, 0 < (blockSpan p b).size := fun b hb => hp.lsizes_pos (hi.held b hb).1
  have hapart : (s.held.map (blockSpan p)).Pairwise Span.Apart := by
    refine pairwise_apart_of_cover_le (List.forall_mem_map.mpr hpos) fun x => ?_
    have hc := hi.once x
    rw [spans, cover_append] at hc
    split_ifs at hc <;> omega
  refine (List.pairwise_map.mp hapart).imp_of_mem fun {b c} hb _ hbc he => ?_
  have := hpos b hb
  subst he
  simp only [Span.Apart] at hbc
  omega

section

variable [DecidableEq T]

def Phase.block (p : KMemPool) : Phase → Option (Nat × Nat)
  | .split _ _ fromL blk => some (fromL, blockNum p blk (lsizes p fromL))
  | .free level bn => some (level, bn)
  | _ => none

def Phase.Fits (p : KMemPool) : Phase → Prop
  | .scan _ i allocL freeL => i ≤ p.nLevels ∧ (allocL = none → i = 0) ∧
      (∀ a, allocL = some a → a + 1 = i) ∧ ∀ f, freeL = some f → f < i
  | .take _ allocL freeL => freeL ≤ allocL ∧ allocL < p.nLevels
  | .split _ allocL fromL blk => fromL ≤ allocL ∧ allocL < p.nLevels ∧
      blk = blockPtr p (lsizes p fromL) (blockNum p blk (lsizes p fromL))
  | _ => True

structure Sound (p : KMemPool) (store : State) (owned : List (Nat × Nat)) (phase : T → Phase)
    (waitQ : List T) : Prop where
  inv : ∃ fl, Inv p fl store
  holders : Holders store.held owned fun t => (phase t).block p
  fits : ∀ t, (phase t).Fits p
  nodup : waitQ.Nodup
  waits : ∀ t, t ∈ waitQ ↔ ∃ r, phase t = .pending r

abbrev Sys.Sound (p : KMemPool) (s : Sys T) : Prop :=
  MemPool.Sound p s.store s.owned s.phase s.waitQ

variable {store store' : State} {owned owned' : List (Nat × Nat)} {phase : T → Phase}
  {waitQ : List T} {ph : Phase} {allocL fromL blk : Nat} {level bn : Nat}

theorem block_update (phase : T → Phase) (t : T) (ph : Phase) :
    (fun u => (update phase t ph u).block p) =
      update (fun u => (phase u).block p) t (ph.block p) := by
  funext u
  rcases eq_or_ne u t with rfl | hu
  · simp
  · simp [hu]

theorem Sound.move (h : Sound p store owned phase waitQ) (hinv : ∃ fl, Inv p fl store')
    (hh : Holders store'.held owned' (update (fun u => (phase u).block p) t (ph.block p)))
    (hf : ph.Fits p) (hold : ∀ r, phase t ≠ .pending r) (hnew : ∀ r, ph ≠ .pending r) :
    Sound p store' owned' (update phase t ph) waitQ := by
  refine ⟨hinv, (block_update phase t ph).symm ▸ hh, fun u => ?_, h.nodup, fun u => ?_⟩
  · rcases eq_or_ne u t with rfl | hu
    · simpa using hf
    · simpa [hu] using h.fits u
  · rcases eq_or_ne u t with rfl | hu
    · simp [h.waits, hold, hnew]
    · simp [h.waits, hu]

theorem Sound.goTo (h : Sound p store owned phase waitQ) (hb : (phase t).block p = none)
    (hb' : ph.block p = none) (hf : ph.Fits p) (hold : ∀ r, phase t ≠ .pending r)
    (hnew : ∀ r, ph ≠ .pending r) : Sound p store owned (update phase t ph) waitQ := by
  refine h.move h.inv ?_ hf hold hnew
  have heq : update (fun u => (phase u).block p) t (ph.block p) =
      fun u => (phase u).block p := update_eq_self_iff.mpr (hb'.trans hb.symm)
  rw [heq]
  exact h.holders

theorem poolTake_store (s : Sys T) (t : T) (r : Request) (allocL : Nat) {freeL : Nat}
    (hf : freeL < p.nLevels) :
    step p s.store (.alloc freeL) = some (poolTake p s t r allocL freeL).store := by
  simp only [step, hf, if_true, poolTake]
  split <;> simp_all [Sys.goTo, Sys.ret]

theorem poolBreak_store (t : T) (hlt : fromL < allocL)
    (hf : (Phase.split r allocL fromL blk).Fits p)
    (hb : (fromL, blockNum p blk (lsizes p fromL)) ∈ s.store.held) :
    step p s.store (.split fromL (blockNum p blk (lsizes p fromL))) =
      some (poolBreak p s t r allocL fromL blk).store := by
  have hl : fromL + 1 < p.nLevels := by have := hf.2.1; omega
  simp only [step, hb, hl, ← hf.2.2, poolBreak, if_pos hlt]
  rfl

theorem poolFree_store (t : T) (hb : (level, bn) ∈ s.store.held) :
    step p s.store (.free level bn) = some (poolFree p s t level bn).store := by
  simp only [step, hb]
  rfl

omit [DecidableEq T] in
theorem Sound.store_step (hp : ExactPool p) {a : Step} (h : Sound p store owned phase waitQ)
    (ha : step p store a = some store') : (∃ fl, Inv p fl store') ∧ store'.held.Nodup := by
  obtain ⟨fl, hi⟩ := Inv.step hp h.inv ha
  exact ⟨⟨fl, hi⟩, hi.held_nodup hp⟩

theorem Sound.poolScan (h : s.Sound p) {i : Nat} {allocL freeL : Option Nat}
    (ht : s.phase t = .scan r i allocL freeL) : (poolScan p s t r i allocL freeL).Sound p := by
  have hf := h.fits t
  simp only [ht, Phase.Fits] at hf
  obtain ⟨hi, ha, ha', hfree⟩ := hf
  have hgo : ∀ {ph : Phase}, ph.block p = none → ph.Fits p → (∀ r, ph ≠ .pending r) →
      Sound p s.store s.owned (update s.phase t ph) s.waitQ := fun hb hf hn =>
    h.goTo (by rw [ht]; rfl) hb hf (by simp [ht]) hn
  unfold MemPool.poolScan
  by_cases hc : i < p.nLevels ∧ ¬ lsizes p i < r.size
  · rw [if_pos hc]
    refine hgo rfl ⟨hc.1, nofun, fun a he => ?_, fun f he => ?_⟩ nofun
    · rw [Option.some.inj he]
    · split_ifs at he
      · exact Nat.lt_succ_of_lt (hfree f he)
      · cases he
        exact Nat.lt_succ_self i
  · rw [if_neg hc]
    split
    next a f =>
      have h1 := ha' a rfl
      have h2 := hfree f rfl
      exact hgo rfl ⟨by omega, by omega⟩ nofun
    next =>
      split_ifs
      · exact hgo rfl trivial nofun
      · exact hgo rfl trivial nofun

theorem Sound.poolTake (hp : ExactPool p) (h : s.Sound p) {allocL freeL : Nat}
    (ht : s.phase t = .take r allocL freeL) : (poolTake p s t r allocL freeL).Sound p := by
  have hf := h.fits t
  simp only [ht, Phase.Fits] at hf
  have hblk : (s.phase t).block p = none := by rw [ht]; rfl
  have hl : freeL < p.nLevels := by omega
  obtain ⟨hinv, hnd⟩ := h.store_step hp (poolTake_store s t r allocL hl)
  obtain ⟨fl, hi⟩ := h.inv
  revert hinv hnd
  unfold MemPool.poolTake
  cases hfl : fl freeL with
  | nil =>
    rw [allocBlock_nil hi.store hl hfl]
    exact fun hinv _ => h.goTo hblk rfl trivial (by simp [ht]) nofun
  | cons b xs =>
    rw [allocBlock_cons hp hi.store hl hfl]
    intro hinv hnd
    refine h.move hinv (h.holders.gain hnd) ⟨hf.1, hf.2, ?_⟩ (by simp [ht]) nofun
    rw [blockNum_blockPtr (hp.lsizes_pos hl)]

theorem Sound.poolBreak (hp : ExactPool p) (h : s.Sound p)
    (ht : s.phase t = .split r allocL fromL blk) :
    (poolBreak p s t r allocL fromL blk).Sound p := by
  have hf := h.fits t
  rw [ht] at hf
  have hblk : (s.phase t).block p = some (fromL, blockNum p blk (lsizes p fromL)) := by rw [ht]; rfl
  have hmem := h.holders.mem t _ hblk
  by_cases hlt : fromL < allocL
  · obtain ⟨hinv, hnd⟩ := h.store_step hp (poolBreak_store t hlt hf hmem)
    have hl : fromL + 1 < p.nLevels := by have := hf.2.1; omega
    revert hinv hnd
    unfold MemPool.poolBreak
    rw [if_pos hlt]
    dsimp only [Sys.goTo]
    intro hinv hnd
    have hh := h.holders.exchange hblk hnd
    refine h.move hinv hh ⟨hlt, hf.2.1, ?_⟩ (by simp [ht]) nofun
    obtain ⟨b, rfl⟩ : ∃ b, blk = blockPtr p (lsizes p fromL) b := ⟨_, hf.2.2⟩
    rw [blockNum_child hp hl, blockPtr_child hp hl]
  · unfold MemPool.poolBreak
    rw [if_neg hlt]
    have heq : allocL = fromL := by have := hf.1; omega
    rw [heq]
    exact h.move h.inv (h.holders.own hblk) trivial (by simp [ht]) nofun

theorem Sound.poolFree (hp : ExactPool p) (h : s.Sound p)
    (ht : s.phase t = .free level bn) : (poolFree p s t level bn).Sound p := by
  have hblk : (s.phase t).block p = some (level, bn) := by rw [ht]; rfl
  obtain ⟨hinv, hnd⟩ := h.store_step hp (poolFree_store t (h.holders.mem t _ hblk))
  revert hinv hnd
  unfold MemPool.poolFree
  rcases freeBlock p s.store.pool level bn with ⟨_, _ | ⟨l, b⟩⟩
  · intro hinv _
    have hh := h.holders.drop hblk
    exact h.move hinv hh trivial (by simp [ht]) nofun
  · intro hinv hnd
    have hh := h.holders.exchange hblk (c := (l, b)) hnd
    exact h.move hinv hh trivial (by simp [ht]) nofun

theorem Sound.pend (h : Sound p store owned phase waitQ) (ht : phase t = .failed r) :
    Sound p store owned (update phase t (.pending r)) (pendThread prio t waitQ) := by
  have hq : t ∉ waitQ := fun hm => by simpa [ht] using (h.waits t).mp hm
  have hb : (fun u => (update phase t (.pending r) u).block p) =
      fun u => (phase u).block p := by
    rw [block_update, update_eq_self_iff, ht]
    rfl
  refine ⟨h.inv, hb ▸ h.holders, fun u => ?_, nodup_pendThread h.nodup hq, fun u => ?_⟩
  · rcases eq_or_ne u t with rfl | hu
    · simp [Phase.Fits]
    · simpa [hu] using h.fits u
  · rcases eq_or_ne u t with rfl | hu
    · simp [mem_pendThread]
    · simp [mem_pendThread, hu, h.waits]

theorem Sound.expire (h : Sound p store owned phase waitQ) (ht : phase t = .pending r) :
    Sound p store owned (update phase t (.woken r)) (waitQ.erase t) := by
  have hb : (fun u => (update phase t (.woken r) u).block p) =
      fun u => (phase u).block p := by
    rw [block_update, update_eq_self_iff, ht]
    rfl
  refine ⟨h.inv, hb ▸ h.holders, fun u => ?_, h.nodup.erase t, fun u => ?_⟩
  · rcases eq_or_ne u t with rfl | hu
    · simp [Phase.Fits]
    · simpa [hu] using h.fits u
  · rw [h.nodup.mem_erase_iff]
    rcases eq_or_ne u t with rfl | hu
    · simp
    · simp [hu, h.waits]

theorem ready_eq (h : Sound p store owned phase waitQ) (u : T) :
    (if u ∈ waitQ then (phase u).ready else phase u) = (phase u).ready := by
  split_ifs with hu
  · rfl
  · cases hp : phase u with
    | pending r => exact absurd ((h.waits u).mpr ⟨r, hp⟩) hu
    | _ => rfl

theorem Sound.poolWake (h : s.Sound p) (ht : s.phase t = .wake) : (poolWake s t).Sound p := by
  have hblock : ∀ ph : Phase, ph.ready.block p = ph.block p := fun ph => by cases ph <;> rfl
  have hready : Sound p s.store s.owned (fun u => (s.phase u).ready) [] := by
    refine ⟨h.inv, by simpa only [hblock] using h.holders, fun u => ?_, .nil, fun u => ?_⟩
    · have hf := h.fits u
      cases hp : s.phase u <;> simp only [hp, Phase.ready] at hf ⊢ <;> exact hf
    · cases s.phase u <;> simp [Phase.ready]
  have hgo : Sound p s.store s.owned (update (fun u => (s.phase u).ready) t .idle) [] :=
    hready.goTo (by simp [ht, Phase.ready, Phase.block]) rfl trivial (by simp [ht, Phase.ready])
      nofun
  simpa only [MemPool.poolWake, Sys.goTo, Sys.Sound, ready_eq h] using hgo

theorem fits_scan_zero (r : Request) : (Phase.scan r 0 none none).Fits p :=
  ⟨Nat.zero_le _, fun _ => rfl, nofun, nofun⟩

theorem Sound.allocRetry (h : s.Sound p) (ht : s.phase t = .woken r) :
    (allocRetry s t r).Sound p := by
  unfold MemPool.allocRetry
  dsimp only
  split_ifs
  · exact h.goTo (by rw [ht]; rfl) rfl trivial (by simp [ht]) nofun
  all_goals exact h.goTo (by rw [ht]; rfl) rfl (fits_scan_zero _) (by simp [ht]) nofun

theorem Sound.next (hp : ExactPool p) (h : s.Sound p) (hok : Allowed s e)
    (hn : next p hz prio s e = some s') : s'.Sound p := by
  cases ran_of_next hn with
  | alloc t size timeout ht =>
    exact h.goTo (by rw [ht]; rfl) rfl (fits_scan_zero _) (by simp [ht]) nofun
  | free t level bn ht => exact h.move h.inv (h.holders.disown hok) trivial (by simp [ht]) nofun
  | scan t r i allocL freeL ht => exact Sound.poolScan h ht
  | take t r allocL freeL ht => exact Sound.poolTake hp h ht
  | split t r allocL fromL blk ht => exact Sound.poolBreak hp h ht
  | pend t r ht => exact Sound.pend h ht
  | retry t r ht => exact Sound.allocRetry h ht
  | merge t level bn ht => exact Sound.poolFree hp h ht
  | wake t ht => exact Sound.poolWake h ht
  | expire t r ht => exact Sound.expire h ht
  | tick => exact h

end

theorem sound_init (hp : ExactPool p) (links : Links Node) : (initSys p links : Sys T).Sound p := by
  refine ⟨⟨_, Inv.init hp links⟩, ?_, fun _ => trivial, .nil, fun t => ?_⟩
  · constructor <;> simp [initSys, initState, Phase.block]
  · simp [initSys]

def InRange (p : KMemPool) (size l : Nat) : Prop := l < p.nLevels ∧ ∀ j ≤ l, ¬ lsizes p j < size

def Passed (p : KMemPool) : Phase → Nat → Prop
  | .scan r i _ freeL, l => l < i ∧ freeL = none ∧ r.timeout ≠ kNoWait
  | .failed r, l => InRange p r.size l
  | _, _ => False

def Awaited (p : KMemPool) : Phase → Nat → Prop
  | .pending r, l => InRange p r.size l
  | _, _ => False

def Freeing : Phase → Prop
  | .free _ _ | .wake => True
  | _ => False

def NoLostWakeup (p : KMemPool) (s : Sys T) : Prop :=
  (∀ t, ¬ Freeing (s.phase t)) → ∀ t ∈ s.waitQ, ∃ r, s.phase t = .pending r ∧
    ∀ l, InRange p r.size l → levelEmpty s.store.pool l = true

def Noticed (p : KMemPool) (s : Sys T) : Prop :=
  ∀ t l, Passed p (s.phase t) l ∨ Awaited p (s.phase t) l →
    levelEmpty s.store.pool l = true ∨ ∃ v, Freeing (s.phase v)

theorem noticed_of_freeing {v : T} (hv : Freeing (s.phase v)) : Noticed p s :=
  fun _ _ _ => .inr ⟨v, hv⟩

theorem Sound.level_lt {store : State} {owned : List (Nat × Nat)} {phase : T → Phase}
    {waitQ : List T} (h : Sound p store owned phase waitQ)
    (hl : Passed p (phase t) l ∨ Awaited p (phase t) l) : l < p.nLevels := by
  have hf := h.fits t
  cases ht : phase t with
  | scan r i allocL freeL =>
    rw [ht] at hl hf
    obtain ⟨hlt, -, -⟩ := hl.resolve_right id
    exact Nat.lt_of_lt_of_le hlt hf.1
  | failed r =>
    rw [ht] at hl
    exact (hl.resolve_right id).1
  | pending r =>
    rw [ht] at hl
    exact (hl.resolve_left id).1
  | _ =>
    rw [ht] at hl
    exact (hl.elim id id).elim

theorem Noticed.noLostWakeup (h : Noticed p s) (hsound : s.Sound p) : NoLostWakeup p s := by
  intro hfree t ht
  obtain ⟨r, hr⟩ := (hsound.waits t).mp ht
  refine ⟨r, hr, fun l hl => ?_⟩
  exact (h t l (.inr (by rw [hr]; exact hl))).resolve_right fun ⟨v, hv⟩ => hfree v hv

variable [DecidableEq T]

instance (size : Nat) : Decidable (InRange p size l) := by
  unfold InRange
  infer_instance

instance (ph : Phase) : Decidable (Passed p ph l) := by
  cases ph <;> unfold Passed <;> infer_instance

instance (ph : Phase) : Decidable (Awaited p ph l) := by
  cases ph <;> unfold Awaited <;> infer_instance

instance (ph : Phase) : Decidable (Freeing ph) := by
  cases ph <;> unfold Freeing <;> infer_instance

/-- No free comes to its wake-up section while an attempt has passed a level that is not empty, and
no block is broken into ones of a level that was passed or is awaited, unless a free is to come. -/
def Undisturbed (p : KMemPool) (s : Sys T) : Event T → Prop
  | .run t => match s.phase t with
    | .wake => ∀ u, ∀ l < p.nLevels, Passed p (s.phase u) l →
        levelEmpty s.store.pool l = true ∨ ∃ v ≠ t, Freeing (s.phase v)
    | .split _ allocL fromL _ => fromL < allocL → ∀ u,
        Passed p (s.phase u) (fromL + 1) ∨ Awaited p (s.phase u) (fromL + 1) →
          ∃ v, Freeing (s.phase v)
    | _ => True
  | _ => True

instance [Fintype T] (e : Event T) : Decidable (Undisturbed p s e) := by
  unfold Undisturbed
  split
  · split <;> infer_instance
  · infer_instance

theorem levelEmpty_iff {fl : Nat → List Nat} {pool : Pool} (hs : Store p fl pool)
    (hl : l < p.nLevels) : levelEmpty pool l = true ↔ fl l = [] := by
  rw [levelEmpty, sysDlistIsEmpty_iff (hs.rings.ring l hl), nodesOf, List.map_eq_nil_iff]

variable {ph : Phase}

theorem Noticed.goTo (h : Noticed p s) (ht : ¬ Freeing (s.phase t))
    (hs : s'.phase = update s.phase t ph)
    (hpool : ∀ u l, Passed p (s.phase u) l ∨ Awaited p (s.phase u) l →
      levelEmpty s.store.pool l = true →
      levelEmpty s'.store.pool l = true ∨ ∃ v, Freeing (s.phase v))
    (hnew : ∀ l, Passed p ph l ∨ Awaited p ph l →
      levelEmpty s'.store.pool l = true ∨ ∃ v, Freeing (s.phase v)) : Noticed p s' := by
  have hfree : (∃ v, Freeing (s.phase v)) → ∃ v, Freeing (s'.phase v) := by
    rintro ⟨v, hv⟩
    have hne : v ≠ t := by
      rintro rfl
      exact ht hv
    exact ⟨v, by rwa [hs, update_of_ne hne]⟩
  intro u l hu
  rw [hs] at hu
  rcases eq_or_ne u t with rfl | hne
  · rw [update_self] at hu
    exact (hnew l hu).imp_right hfree
  · rw [update_of_ne hne] at hu
    rcases h u l hu with he | hv
    · exact (hpool u l hu he).imp_right hfree
    · exact .inr (hfree hv)

theorem Noticed.leave (h : Noticed p s) (ht : ¬ Freeing (s.phase t))
    (hs : s'.phase = update s.phase t ph) (hpool : s'.store = s.store)
    (hnew : ∀ l, ¬ (Passed p ph l ∨ Awaited p ph l)) : Noticed p s' :=
  h.goTo ht hs (fun _ _ _ he => .inl (hpool ▸ he)) fun l hl => absurd hl (hnew l)

theorem not_passed_scan_zero (r : Request) (l : Nat) :
    ¬ (Passed p (.scan r 0 none none) l ∨ Awaited p (.scan r 0 none none) l) := by
  simp [Passed, Awaited]

theorem Noticed.poolScan (h : Noticed p s) (hsound : s.Sound p) {i : Nat}
    {allocL freeL : Option Nat} (ht : s.phase t = .scan r i allocL freeL) :
    Noticed p (poolScan p s t r i allocL freeL) := by
  have hf : ¬ Freeing (s.phase t) := by simp [ht, Freeing]
  have hfits := hsound.fits t
  simp only [ht, Phase.Fits] at hfits
  have hpassed : ∀ l < i, freeL = none → r.timeout ≠ kNoWait →
      levelEmpty s.store.pool l = true ∨ ∃ v, Freeing (s.phase v) := fun l hl hn hw =>
    h t l (.inl (by rw [ht]; exact ⟨hl, hn, hw⟩))
  unfold MemPool.poolScan
  by_cases hc : i < p.nLevels ∧ ¬ lsizes p i < r.size
  · rw [if_pos hc]
    refine h.goTo hf rfl (fun _ _ _ he => .inl he) fun l hl => ?_
    obtain ⟨hlt, hnone, hw⟩ := hl.resolve_right id
    split_ifs at hnone with he
    rcases Nat.lt_succ_iff_lt_or_eq.mp hlt with hlt | rfl
    · exact hpassed l hlt hnone hw
    · exact .inl he
  · rw [if_neg hc]
    split
    next => exact h.leave hf rfl rfl fun l hl => hl.elim id id
    next hnone =>
      have hfree : freeL = none := by
        cases hfl : freeL with
        | none => rfl
        | some f =>
          have hlt := hfits.2.2.2 f hfl
          cases ha : allocL with
          | none => have := hfits.2.1 ha; omega
          | some a => exact (hnone a f ha hfl).elim
      split_ifs with hw
      · exact h.leave hf rfl rfl fun l hl => hl.elim id id
      · refine h.goTo hf rfl (fun _ _ _ he => .inl he) fun l hl => ?_
        obtain ⟨hlt, hsize⟩ := hl.resolve_right id
        -- the walk has come past every level in range
        have hli : l < i := by
          by_contra hn
          exact hc ⟨by omega, hsize i (by omega)⟩
        exact hpassed l hli hfree hw

theorem Noticed.poolTake (hp : ExactPool p) (h : Noticed p s) (hsound : s.Sound p)
    {allocL freeL : Nat} (ht : s.phase t = .take r allocL freeL) :
    Noticed p (poolTake p s t r allocL freeL) := by
  have hfits := hsound.fits t
  simp only [ht, Phase.Fits] at hfits
  have hl : freeL < p.nLevels := by omega
  obtain ⟨_, hi⟩ := hsound.inv
  obtain ⟨_, _, hstep, hi', hsub⟩ := hi.alloc hp hl
  cases (poolTake_store s t r allocL hl).symm.trans hstep
  obtain ⟨ph, hph, hnot⟩ : ∃ ph, (MemPool.poolTake p s t r allocL freeL).phase =
      update s.phase t ph ∧ ∀ l, ¬ (Passed p ph l ∨ Awaited p ph l) := by
    unfold MemPool.poolTake
    split <;> exact ⟨_, rfl, fun l hl => hl.elim id id⟩
  refine h.goTo (by simp [ht, Freeing]) hph (fun u l hu he => .inl ?_)
    fun l hl => absurd hl (hnot l)
  have hlt := hsound.level_lt hu
  rw [levelEmpty_iff hi'.store hlt]
  exact List.subset_nil.mp ((levelEmpty_iff hi.store hlt).mp he ▸ hsub l)

theorem Noticed.poolBreak (hp : ExactPool p) (h : Noticed p s) (hsound : s.Sound p)
    {allocL fromL blk : Nat} (ht : s.phase t = .split r allocL fromL blk)
    (hu : Undisturbed p s (.run t)) : Noticed p (poolBreak p s t r allocL fromL blk) := by
  have hf : ¬ Freeing (s.phase t) := by simp [ht, Freeing]
  have hfits := hsound.fits t
  rw [ht] at hfits
  simp only [Undisturbed, ht] at hu
  by_cases hlt : fromL < allocL
  · have hl : fromL + 1 < p.nLevels := by have := hfits.2.1; omega
    have hblk : (s.phase t).block p = some (fromL, blockNum p blk (lsizes p fromL)) := by
      rw [ht]
      rfl
    have hmem := hsound.holders.mem t _ hblk
    obtain ⟨_, hi⟩ := hsound.inv
    obtain ⟨_, hstep, hi'⟩ := hi.split hp hl hmem
    cases (poolBreak_store t hlt hfits hmem).symm.trans hstep
    have hph : (MemPool.poolBreak p s t r allocL fromL blk).phase =
        update s.phase t (.split r allocL (fromL + 1) blk) := by
      rw [MemPool.poolBreak, if_pos hlt]
      rfl
    refine h.goTo hf hph (fun u l hl' he => ?_) fun l hl' => (hl'.elim id id).elim
    rcases eq_or_ne l (fromL + 1) with rfl | hne
    · exact .inr (hu hlt u hl')
    · have hlt' := hsound.level_lt hl'
      left
      rw [levelEmpty_iff hi'.store hlt', update_of_ne hne]
      exact (levelEmpty_iff hi.store hlt').mp he
  · rw [MemPool.poolBreak, if_neg hlt]
    exact h.leave hf rfl rfl fun l hl => hl.elim id id

theorem passed_of_ready (h : Passed p ph.ready l ∨ Awaited p ph.ready l) : Passed p ph l := by
  cases ph <;> simp_all [Phase.ready, Passed, Awaited]

theorem Noticed.poolWake (hsound : s.Sound p) (ht : s.phase t = .wake)
    (hu : Undisturbed p s (.run t)) : Noticed p (poolWake s t) := by
  simp only [Undisturbed, ht] at hu
  have hph : ∀ v, (MemPool.poolWake s t).phase v = if v = t then .idle else (s.phase v).ready := by
    intro v
    simp only [MemPool.poolWake, Sys.goTo, update_apply, ready_eq hsound]
  have hready : ∀ ph : Phase, Freeing ph → Freeing ph.ready := fun ph h => by
    cases ph <;> exact h
  intro v l hv
  rw [hph] at hv
  split_ifs at hv with hvt
  · exact (hv.elim id id).elim
  · have hpassed := passed_of_ready hv
    rcases hu v l (hsound.level_lt (.inl hpassed)) hpassed with he | ⟨w, hw, hfree⟩
    · exact .inl he
    · refine .inr ⟨w, ?_⟩
      rw [hph, if_neg hw]
      exact hready _ hfree

theorem Noticed.allocRetry (h : Noticed p s) (ht : s.phase t = .woken r) :
    Noticed p (allocRetry s t r) := by
  have hf : ¬ Freeing (s.phase t) := by simp [ht, Freeing]
  unfold MemPool.allocRetry
  dsimp only
  split_ifs
  · exact h.leave hf rfl rfl fun l hl => hl.elim id id
  · exact h.leave hf rfl rfl (not_passed_scan_zero _)
  · exact h.leave hf rfl rfl (not_passed_scan_zero _)

theorem Noticed.next (hp : ExactPool p) (h : Noticed p s) (hsound : s.Sound p)
    (hu : Undisturbed p s e) (hn : next p hz prio s e = some s') : Noticed p s' := by
  cases ran_of_next hn with
  | alloc t size timeout ht =>
    exact h.leave (by simp [ht, Freeing]) rfl rfl (not_passed_scan_zero _)
  | free t level bn ht => exact noticed_of_freeing (v := t) (by simp [Sys.goTo, Freeing])
  | scan t r i allocL freeL ht => exact Noticed.poolScan h hsound ht
  | take t r allocL freeL ht => exact Noticed.poolTake hp h hsound ht
  | split t r allocL fromL blk ht => exact Noticed.poolBreak hp h hsound ht hu
  | pend t r ht =>
    refine h.goTo (by simp [ht, Freeing]) rfl (fun _ _ _ he => .inl he) fun l hl => ?_
    exact h t l (.inl (by rw [ht]; exact hl.resolve_left id))
  | retry t r ht => exact Noticed.allocRetry h ht
  | merge t level bn ht =>
    refine noticed_of_freeing (v := t) ?_
    unfold poolFree
    rcases freeBlock p s.store.pool level bn with ⟨_, _ | ⟨l, b⟩⟩ <;> simp [Sys.goTo, Freeing]
  | wake t ht => exact Noticed.poolWake hsound ht hu
  | expire t r ht => exact h.leave (by simp [ht, Freeing]) rfl rfl fun l hl => hl.elim id id
  | tick => exact h

/-- In a run in which no attempt is disturbed no wake-up is lost. -/
theorem no_lost_wakeup (hp : ExactPool p) {links : Links Node}
    (hrun : GuardedRun (next p hz prio) (fun s e => Allowed s e ∧ Undisturbed p s e)
      (initSys p links) s) : NoLostWakeup p s := by
  obtain ⟨hsound, h⟩ : s.Sound p ∧ Noticed p s := by
    refine hrun.invariant (P := fun s => s.Sound p ∧ Noticed p s) ?_
      ⟨sound_init hp links, fun t l hl => (hl.elim id id).elim⟩
    rintro s e _ ⟨hsound, h⟩ ⟨hok, hu⟩ hn
    exact ⟨hsound.next hp hok hn, h.next hp hsound hu hn⟩
  exact h.noLostWakeup hsound

theorem no_lost_wakeup_two : ∃ s : Sys (Fin 2), s.waitQ = [1] ∧ s.phase 0 = .wake ∧
    levelEmpty s.store.pool 0 = false ∧ NoLostWakeup (kMemPoolDefine 0 64 64 1) s := by
  have hp : ExactPool (kMemPoolDefine 0 64 64 1) :=
    kMemPoolDefine_exact (m := 64) (y := 0) 0 (by decide) (by decide) (by decide)
  have hrun : GuardedRun (next (kMemPoolDefine 0 64 64 1) 100 fun _ => 0)
      (fun s e => Allowed s e ∧ Undisturbed (kMemPoolDefine 0 64 64 1) s e)
      (initSys (kMemPoolDefine 0 64 64 1) ⟨id, id⟩ : Sys (Fin 2)) _ :=
    .of_foldlM _ _ [.alloc 0 64 kNoWait, .run 0, .run 0, .run 0, .run 0, .alloc 1 64 kForever,
      .run 1, .run 1, .run 1, .free 0 0 0, .run 0] rfl
  exact ⟨_, rfl, rfl, rfl, no_lost_wakeup hp hrun⟩

/-- The block is freed between thread 1's failed attempt and its pend. And: thread 0 breaks the only
block of 64 bytes after thread 1 has looked for one of 16, and three of those are left over. -/
theorem wakeup_lost : (∃ s : Sys (Fin 2), [Event.alloc 0 64 kNoWait, .run 0, .run 0, .run 0, .run 0,
        .alloc 1 64 kForever, .run 1, .run 1, .free 0 0 0, .run 0, .run 0, .run 1].foldlM
        (fun s e => if Allowed s e then
          next (kMemPoolDefine 0 64 64 1) 100 (fun _ => 0) s e else none)
        (initSys (kMemPoolDefine 0 64 64 1) ⟨id, id⟩) = some s ∧ s.waitQ = [1] ∧
      ¬ NoLostWakeup (kMemPoolDefine 0 64 64 1) s) ∧
    ∃ s : Sys (Fin 2), [Event.alloc 0 16 kNoWait, .run 0, .run 0, .run 0, .run 0,
        .alloc 1 16 kForever, .run 1, .run 1, .run 1, .run 1, .run 0, .run 0].foldlM
        (fun s e => if Allowed s e then
          next (kMemPoolDefine 0 16 64 1) 100 (fun _ => 0) s e else none)
        (initSys (kMemPoolDefine 0 16 64 1) ⟨id, id⟩) = some s ∧ s.waitQ = [1] ∧
      ¬ NoLostWakeup (kMemPoolDefine 0 16 64 1) s := by
  have lost : ∀ {p : KMemPool} {s : Sys (Fin 2)} {r : Request} {l : Nat},
      (∀ t, ¬ Freeing (s.phase t)) → 1 ∈ s.waitQ → s.phase 1 = .pending r → InRange p r.size l →
      levelEmpty s.store.pool l = false → ¬ NoLostWakeup p s := by
    intro p s r l hf hw hr hl he h
    obtain ⟨r', hr', hempty⟩ := h hf 1 hw
    obtain rfl : r = r' := Phase.pending.inj (hr.symm.trans hr')
    simp [hempty l hl] at he
  exact ⟨⟨_, rfl, rfl, lost (l := 0) (by decide) (by decide) rfl (by decide) rfl⟩,
    _, rfl, rfl, lost (l := 1) (by decide) (by decide) rfl (by decide) rfl⟩

end Zephyr.MemPool
