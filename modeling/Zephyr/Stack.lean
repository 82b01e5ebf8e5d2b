import Zephyr.Run
import Zephyr.WaitQ

/-! A stack of `kernel/stack.c` that is used from user mode. The system call handler tests for a
free entry before interrupts are locked, so calls that have passed the test can outnumber the free
entries. -/

namespace Zephyr.Stack

open Function

abbrev Word := BitVec 32

inductive Entry where
  | pushed (v : Word)
  | popped (v : Word)

/-- The fields of `struct k_stack`, counted in entries, and the memory around its buffer. `calls`
are the values of the calls of `k_stack_push` whose test has succeeded, and `log` has what was
stored and taken out, the latest first. -/
structure KStack (T : Type) where
  next : Nat
  base : Nat
  top : Nat
  mem : Nat → Word
  waitQ : TimedQ T
  calls : List Word
  log : List Entry

inductive Act (T : Type) where
  -- the handler's test of a call with this value
  | verify (v : Word)
  | push (v : Word)
  | pop (t : T) (wait : Bool)
  | tick (e : Tick T)

variable {T : Type}

def kStackInit (buffer numEntries : Nat) (mem : Nat → Word) : KStack T :=
  ⟨buffer, buffer, buffer + numEntries, mem, .empty, [], []⟩

def implKStackPop (prio : T → Int) (stack : KStack T) (t : T) (wait : Bool) : KStack T :=
  if stack.base < stack.next then
    { stack with
      next := stack.next - 1
      log := .popped (stack.mem (stack.next - 1)) :: stack.log }
  else if wait then { stack with waitQ := stack.waitQ.pend prio t }
  else stack

variable [DecidableEq T]

def implKStackPush (stack : KStack T) (v : Word) : KStack T :=
  match stack.waitQ.unpendFirst with
  | some (_, waitQ) => { stack with waitQ }
  | none =>
    { stack with
      mem := update stack.mem stack.next v
      next := stack.next + 1
      log := .pushed v :: stack.log }

def step (prio : T → Int) (stack : KStack T) : Act T → Option (KStack T)
  | .verify v =>
    if stack.next ≠ stack.top then some { stack with calls := v :: stack.calls } else none
  | .push v =>
    if v ∈ stack.calls then
      some (implKStackPush { stack with calls := stack.calls.erase v } v)
    else none
  | .pop t wait =>
    if t ∈ stack.waitQ.waitQ then none else some (implKStackPop prio stack t wait)
  | .tick e => (stack.waitQ.tick e).map fun waitQ => { stack with waitQ }

/-- The values left, the last one stored first, if each value taken out was the first of them. -/
def replay : List Entry → Option (List Word)
  | [] => some []
  | .pushed v :: log => (replay log).map (v :: ·)
  | .popped v :: log =>
    match replay log with
    | some (w :: rest) => if v = w then some rest else none
    | _ => none

structure Right (stack : KStack T) : Prop where
  base_le : stack.base ≤ stack.next
  le_top : stack.next ≤ stack.top
  lifo : (replay stack.log).isSome

/-- A call is tested only while there is a free entry for it and for every call in progress. -/
def Room (stack : KStack T) : Act T → Prop
  | .verify _ => stack.next + stack.calls.length < stack.top
  | _ => True

instance (stack : KStack T) (a : Act T) : Decidable (Room stack a) := by
  cases a <;> unfold Room <;> infer_instance

def Holds (mem : Nat → Word) (base : Nat) : Nat → List Word → Prop
  | next, [] => next = base
  | next, v :: rest => ∃ n, next = n + 1 ∧ mem n = v ∧ Holds mem base n rest

structure Inv (stack : KStack T) : Prop where
  room : stack.next + stack.calls.length ≤ stack.top
  holds : ∃ values, replay stack.log = some values ∧ Holds stack.mem stack.base stack.next values

variable {prio : T → Int} {stack stack' : KStack T} {values : List Word} {mem : Nat → Word}

theorem Holds.base_le {base next : Nat} (h : Holds mem base next values) : base ≤ next := by
  induction values generalizing next with
  | nil => exact Nat.le_of_eq h.symm
  | cons v rest ih =>
    obtain ⟨n, rfl, -, hrest⟩ := h
    exact Nat.le_succ_of_le (ih hrest)

theorem Holds.update {base next m : Nat}
    (h : Holds mem base next values) (hm : next ≤ m) (v : Word) :
    Holds (update mem m v) base next values := by
  induction values generalizing next with
  | nil => exact h
  | cons w rest ih =>
    obtain ⟨n, rfl, hw, hrest⟩ := h
    exact ⟨n, rfl, by rwa [update_of_ne (by omega)], ih hrest (by omega)⟩

theorem Inv.push (h : Inv stack) {v : Word} (hv : v ∈ stack.calls) :
    Inv (implKStackPush { stack with calls := stack.calls.erase v } v) := by
  obtain ⟨values, hreplay, hholds⟩ := h.holds
  have hroom := h.room
  have hlen := List.length_erase_of_mem hv
  have hpos := List.length_pos_of_mem hv
  unfold implKStackPush
  split
  · refine ⟨?_, values, hreplay, hholds⟩
    dsimp only
    omega
  · refine ⟨?_, v :: values, ?_, stack.next, rfl, update_self .., hholds.update (Nat.le_refl _) v⟩
    · dsimp only
      omega
    · simp only [replay, hreplay, Option.map_some]

omit [DecidableEq T] in
theorem Inv.pop (h : Inv stack) (t : T) (wait : Bool) : Inv (implKStackPop prio stack t wait) := by
  obtain ⟨values, hreplay, hholds⟩ := h.holds
  have hroom := h.room
  unfold implKStackPop
  split_ifs with hnext
  · cases values with
    | nil => exact absurd hholds (Nat.ne_of_gt hnext)
    | cons v rest =>
      obtain ⟨n, heq, hv, hrest⟩ := hholds
      rw [heq, Nat.add_sub_cancel, hv]
      refine ⟨?_, rest, ?_, hrest⟩
      · dsimp only
        omega
      · simp only [replay, hreplay, if_true]
  · exact ⟨hroom, values, hreplay, hholds⟩
  · exact h

theorem Inv.step (h : Inv stack) {a : Act T} (hok : Room stack a)
    (hstep : step prio stack a = some stack') : Inv stack' := by
  cases a with
  | verify v =>
    simp only [Stack.step] at hstep
    split_ifs at hstep
    cases hstep
    exact ⟨hok, h.holds⟩
  | push v =>
    simp only [Stack.step] at hstep
    split_ifs at hstep with hv
    exact Option.some.inj hstep ▸ h.push hv
  | pop t wait =>
    simp only [Stack.step] at hstep
    split_ifs at hstep
    exact Option.some.inj hstep ▸ h.pop t wait
  | tick e =>
    obtain ⟨q, -, rfl⟩ := Option.map_eq_some_iff.mp hstep
    exact ⟨h.room, h.holds⟩

/-- In every run whose calls are tested with room for all calls in progress, the pointer stays in
the buffer and the values that are stored come out in reverse order. -/
theorem right_of_room (buffer numEntries : Nat) (mem : Nat → Word)
    (hrun : GuardedRun (step prio) Room (kStackInit buffer numEntries mem) stack) : Right stack := by
  have hinv : Inv stack := hrun.invariant (P := Inv) (fun _ _ _ hs => hs.step)
    ⟨Nat.le_add_right .., [], rfl, rfl⟩
  obtain ⟨_, hreplay, hholds⟩ := hinv.holds
  exact ⟨hholds.base_le, Nat.le_of_add_right_le hinv.room, by rw [hreplay]; rfl⟩

theorem oneEntry_right : ∃ stack : KStack Unit, [Act.verify 7, .push 7, .pop () false].foldlM
      (step fun _ => 0) (kStackInit 16 1 fun _ => 0) = some stack ∧ Right stack :=
  ⟨_, rfl, right_of_room 16 1 (fun _ => 0) (.of_foldlM (step fun _ => 0) Room
    [.verify 7, .push 7, .pop () false] rfl)⟩

/-- Two calls pass the test for the only entry, and the second value is stored behind it. -/
theorem stored_behind_top : ([Act.verify 1, .verify 2, .push 1, .push 2].foldlM (step fun _ => 0)
      (kStackInit 16 1 fun _ => 0 : KStack Unit)).map (fun s => (s.next, s.top, s.mem 17)) =
    some (18, 17, 2) := by
  rfl

end Zephyr.Stack
