import Zephyr.Run

/-! The permissions on kernel objects of `kernel/userspace.c`, a bit for every thread object. A
thread comes to have one by a grant of a thread that has it, from a parent that has it, or on
itself; and none outlives the thread. -/

namespace Zephyr.Userspace

open Function

def ePerm : Int := 1
def eBadf : Int := 9
def eInval : Int := 22
def eAddrInUse : Int := 48

def kEssential : BitVec 32 := 1#32 <<< 0
def kUser : BitVec 32 := 1#32 <<< 2
def kInheritPerms : BitVec 32 := 1#32 <<< 3

inductive KObjType where
  | any | alert | msgq | mutex | pipe | sem | stack | thread | timer | threadStackElement
  | driver (subsystem : Nat)
deriving DecidableEq

/-- What the build fixes of an object; `data` is a thread's index or a stack's size. -/
structure KObject where
  type : KObjType
  data : Nat

/-- The table that `gen_kobject_list.py` makes. It numbers the thread objects, and gives up if there
are more of them than bits. -/
structure ObjectTable (A : Type) (n : Nat) where
  find : A → Option KObject
  indexLt : ∀ a o, find a = some o → o.type = .thread → o.data < n
  indexInj : ∀ a b o p, find a = some o → find b = some p → o.type = .thread → p.type = .thread →
    o.data = p.data → a = b

/-- The fields of the objects, and those of `struct k_thread`, that the system calls read or change.
-/
structure Kernel (A : Type) (n : Nat) where
  perms : A → BitVec n
  initialized : A → Bool
  isPublic : A → Bool
  userOptions : A → BitVec 32
  prio : A → Int
  stackObj : A → A

structure Config where
  lowestPrio : Int
  highestPrio : Int
  guardSize : Nat

/-- The arguments of `k_thread_create`; `readable` says whether the caller may read those that are
passed in memory. -/
structure CreateArgs (A : Type) where
  stack : A
  stackSize : Nat
  readable : Bool
  prio : Int
  options : BitVec 32

inductive Syscall (A : Type) where
  | grant (current object thread : A)
  | revoke (current object thread : A)
  | create (current newThread : A) (args : CreateArgs A)
  | abort (current thread : A)

inductive InitCheck where
  | initTrue
  | initFalse
  | initAny
deriving DecidableEq

def sysBitfieldSetBit {n : Nat} (w : BitVec n) (i : Nat) : BitVec n := w ||| (1#n <<< i)

def sysBitfieldClearBit {n : Nat} (w : BitVec n) (i : Nat) : BitVec n := w &&& ~~~(1#n <<< i)

def sysBitfieldTestBit {n : Nat} (w : BitVec n) (i : Nat) : Bool := w.getLsbD i

variable {A : Type} {n : Nat}

section

variable (k : ObjectTable A n)

def threadIndexGet (t : A) : Option Nat := (k.find t).map (·.data)

variable (s : Kernel A n)

/-- `_k_object_wordlist_foreach` for a function of an object's permissions. -/
def wordlistForeach (f : A → BitVec n → BitVec n) : Kernel A n :=
  { s with perms := fun a => if (k.find a).isSome then f a (s.perms a) else s.perms a }

def threadPermsTest (current object : A) : Bool :=
  s.isPublic object || match threadIndexGet k current with
    | some index => sysBitfieldTestBit (s.perms object) index
    | none => false

def kObjectValidate (current object : A) (otype : KObjType) (init : InitCheck) : Int :=
  match k.find object with
  | none => -eBadf
  | some ko =>
    if otype ≠ .any ∧ ko.type ≠ otype then -eBadf
    else if !threadPermsTest k s current object then -ePerm
    else match init with
      | .initTrue => if !s.initialized object then -eInval else 0
      | .initFalse => if s.initialized object then -eAddrInUse else 0
      | .initAny => 0

end

section

variable [DecidableEq A]

def wordlistCb (parent : A) (parentId childId : Nat) (name : A) (perms : BitVec n) : BitVec n :=
  if sysBitfieldTestBit perms parentId ∧ name ≠ parent then sysBitfieldSetBit perms childId
  else perms

variable (k : ObjectTable A n) (s : Kernel A n)

def threadPermsInherit (parent child : A) : Kernel A n :=
  match threadIndexGet k parent, threadIndexGet k child with
  | some parentId, some childId => wordlistForeach k s (wordlistCb parent parentId childId)
  | _, _ => s

variable (object thread : A)

def threadPermsSet : Kernel A n :=
  match threadIndexGet k thread with
  | some i =>
    { s with perms := update s.perms object (sysBitfieldSetBit (s.perms object) i) }
  | none => s

def threadPermsClear : Kernel A n :=
  match threadIndexGet k thread with
  | some i =>
    { s with perms := update s.perms object (sysBitfieldClearBit (s.perms object) i) }
  | none => s

def threadPermsAllClear (thread : A) : Kernel A n :=
  match threadIndexGet k thread with
  | some i => wordlistForeach k s fun _ perms => sysBitfieldClearBit perms i
  | none => s

def kObjectInit (object : A) : Kernel A n :=
  if (k.find object).isSome then
    { s with initialized := update s.initialized object true }
  else s

def kObjectUninit (object : A) : Kernel A n :=
  if (k.find object).isSome then
    { s with initialized := update s.initialized object false }
  else s

def kObjectAccessGrant : Kernel A n :=
  if (k.find object).isSome then threadPermsSet k s object thread else s

def kThreadSingleAbort (thread : A) : Kernel A n :=
  threadPermsAllClear k (kObjectUninit k (kObjectUninit k s (s.stackObj thread)) thread) thread

def setupNewThread (current newThread : A) (args : CreateArgs A) : Kernel A n :=
  let s := { s with
    prio := update s.prio newThread args.prio
    userOptions := update s.userOptions newThread args.options }
  let s := kObjectInit k (kObjectInit k s newThread) args.stack
  let s := { s with stackObj := update s.stackObj newThread args.stack }
  let s := kObjectAccessGrant k s newThread newThread
  if args.options &&& kInheritPerms ≠ 0#32 then threadPermsInherit k s current newThread else s

def handler (c : Config) (k : ObjectTable A n) (s : Kernel A n) : Syscall A → Option (Kernel A n)
  | .grant current object thread =>
    if kObjectValidate k s current thread .thread .initAny = 0 ∧
        kObjectValidate k s current object .any .initAny = 0 then
      some (threadPermsSet k s object thread)
    else none
  | .revoke current object thread =>
    if kObjectValidate k s current thread .thread .initAny = 0 ∧
        kObjectValidate k s current object .any .initAny = 0 then
      some (threadPermsClear k s object thread)
    else none
  | .create current newThread args =>
    if kObjectValidate k s current newThread .thread .initFalse = 0 ∧
        kObjectValidate k s current args.stack .threadStackElement .initFalse = 0 ∧
        c.guardSize + args.stackSize < 2 ^ 32 ∧
        (∃ o ∈ k.find args.stack, c.guardSize + args.stackSize ≤ o.data) ∧ args.readable ∧
        args.options &&& kUser ≠ 0#32 ∧ args.options &&& kEssential = 0#32 ∧
        c.highestPrio ≤ args.prio ∧ args.prio ≤ c.lowestPrio ∧ s.prio current ≤ args.prio then
      some (setupNewThread k s current newThread args)
    else none
  | .abort current thread =>
    if kObjectValidate k s current thread .thread .initTrue = 0 ∧
        s.userOptions thread &&& kEssential = 0#32 then
      some (kThreadSingleAbort k s thread)
    else none

def Syscall.current : Syscall A → A
  | .grant t _ _ | .revoke t _ _ | .create t _ _ | .abort t _ => t

def oops (current : A) : Option (Kernel A n) :=
  if s.userOptions current &&& kEssential = 0#32 then some (kThreadSingleAbort k s current)
  else none

def step (c : Config) (k : ObjectTable A n) (s : Kernel A n) (a : Syscall A) :
    Option (Kernel A n) :=
  match handler c k s a with
  | some s' => some s'
  | none => oops k s a.current

end

open Option BitVec

variable {c : Config} {k : ObjectTable A n} {s s' : Kernel A n} {a : Syscall A} {o p t u v : A}
  {i j : Nat} {w : BitVec n}

theorem validate_eq_zero {otype : KObjType} {init : InitCheck}
    (h : kObjectValidate k s p o otype init = 0) :
    threadPermsTest k s p o = true ∧
      ∃ ko, k.find o = some ko ∧ (otype = .any ∨ ko.type = otype) := by
  unfold kObjectValidate at h
  split at h
  · simp [eBadf] at h
  next ko hko =>
    by_cases htype : otype ≠ .any ∧ ko.type ≠ otype
    · simp [htype, eBadf] at h
    · by_cases hperm : threadPermsTest k s p o = true
      · exact ⟨hperm, ko, hko, by_contra fun hne => htype (not_or.mp hne)⟩
      · simp [htype, hperm, ePerm] at h

def IsThread (k : ObjectTable A n) (t : A) : Prop := ∃ ko, k.find t = some ko ∧ ko.type = .thread

def HasPerm (k : ObjectTable A n) (s : Kernel A n) (t o : A) : Prop :=
  (k.find o).isSome ∧ ∃ i, threadIndexGet k t = some i ∧ sysBitfieldTestBit (s.perms o) i = true

theorem IsThread.eq_of_index (ht : IsThread k t) (hu : IsThread k u)
    (hi : threadIndexGet k t = some i) (hj : threadIndexGet k u = some i) : t = u := by
  obtain ⟨x, hx, htx⟩ := ht
  obtain ⟨y, hy, hty⟩ := hu
  simp only [threadIndexGet, hx, hy, map_some, some_inj] at hi hj
  exact k.indexInj t u x y hx hy htx hty (hi.trans hj.symm)

theorem hasPerm_congr (h : s'.perms = s.perms) : HasPerm k s' t o ↔ HasPerm k s t o := by
  rw [HasPerm, HasPerm, h]

theorem HasPerm.isThread (h : HasPerm k s p o) (hp : ∀ ko ∈ k.find p, ko.type = .thread) :
    IsThread k p := by
  obtain ⟨-, i, hi, -⟩ := h
  obtain ⟨ko, hko, -⟩ := map_eq_some_iff.mp hi
  exact ⟨ko, hko, hp ko hko⟩

theorem isThread_of_validate {init : InitCheck} (h : kObjectValidate k s p u .thread init = 0) :
    IsThread k u := by
  obtain ⟨-, ko, hko, htype⟩ := validate_eq_zero h
  exact ⟨ko, hko, htype.resolve_left nofun⟩

variable [DecidableEq A]

def CallerIsThread (k : ObjectTable A n) (a : Syscall A) : Prop :=
  ∀ ko ∈ k.find a.current, ko.type = .thread

inductive Cause (k : ObjectTable A n) (s : Kernel A n) (t o : A) : Syscall A → Prop
  | granted (current : A) (h : threadPermsTest k s current o = true) :
    Cause k s t o (.grant current o t)
  | inherited (current : A) (args : CreateArgs A) (hopt : args.options &&& kInheritPerms ≠ 0#32)
    (h : HasPerm k s current o) (hne : o ≠ current) : Cause k s t o (.create current t args)
  | own (current : A) (args : CreateArgs A) (h : o = t) : Cause k s t o (.create current t args)

theorem testBit_setBit : sysBitfieldTestBit (sysBitfieldSetBit w i) j = true ↔
    sysBitfieldTestBit w j = true ∨ i < n ∧ i = j := by
  rw [sysBitfieldTestBit, sysBitfieldSetBit, ← twoPow_eq, getLsbD_or]
  simp [sysBitfieldTestBit]

theorem testBit_clearBit : sysBitfieldTestBit (sysBitfieldClearBit w i) j = true ↔
    sysBitfieldTestBit w j = true ∧ i ≠ j := by
  rw [sysBitfieldTestBit, sysBitfieldClearBit, ← twoPow_eq, getLsbD_and, getLsbD_not]
  simp only [sysBitfieldTestBit]
  grind

theorem hasPerm_threadPermsSet (ht : IsThread k t) (hu : IsThread k u)
    (h : HasPerm k (threadPermsSet k s o u) t v) : HasPerm k s t v ∨ v = o ∧ t = u := by
  obtain ⟨hv, j, hj, hbit⟩ := h
  unfold threadPermsSet at hbit
  split at hbit
  next i hi =>
    simp only [update_apply] at hbit
    split at hbit
    next hvo =>
      rcases testBit_setBit.mp hbit with hold | ⟨-, rfl⟩
      · exact .inl ⟨hv, j, hj, hvo ▸ hold⟩
      · exact .inr ⟨hvo, ht.eq_of_index hu hj hi⟩
    next => exact .inl ⟨hv, j, hj, hbit⟩
  next => exact .inl ⟨hv, j, hj, hbit⟩

theorem hasPerm_threadPermsClear (h : HasPerm k (threadPermsClear k s o u) t v) :
    HasPerm k s t v := by
  obtain ⟨hv, j, hj, hbit⟩ := h
  unfold threadPermsClear at hbit
  split at hbit
  next i hi =>
    simp only [update_apply] at hbit
    split at hbit
    next hvo => exact ⟨hv, j, hj, hvo ▸ (testBit_clearBit.mp hbit).1⟩
    next => exact ⟨hv, j, hj, hbit⟩
  next => exact ⟨hv, j, hj, hbit⟩

theorem hasPerm_threadPermsInherit (ht : IsThread k t) (hu : IsThread k u)
    (h : HasPerm k (threadPermsInherit k s p u) t v) :
    HasPerm k s t v ∨ HasPerm k s p v ∧ v ≠ p ∧ t = u := by
  obtain ⟨hv, j, hj, hbit⟩ := h
  unfold threadPermsInherit at hbit
  split at hbit
  next parentId childId hparent hchild =>
    simp only [wordlistForeach, if_pos hv, wordlistCb] at hbit
    split at hbit
    next hp =>
      rcases testBit_setBit.mp hbit with hold | ⟨-, rfl⟩
      · exact .inl ⟨hv, j, hj, hold⟩
      · exact .inr ⟨⟨hv, parentId, hparent, hp.1⟩, hp.2, ht.eq_of_index hu hj hchild⟩
    next => exact .inl ⟨hv, j, hj, hbit⟩
  next => exact .inl ⟨hv, j, hj, hbit⟩

omit [DecidableEq A] in
theorem hasPerm_threadPermsAllClear (h : HasPerm k (threadPermsAllClear k s u) t v) :
    HasPerm k s t v ∧ t ≠ u := by
  obtain ⟨hv, j, hj, hbit⟩ := h
  unfold threadPermsAllClear at hbit
  split at hbit
  next i hi =>
    simp only [wordlistForeach, if_pos hv] at hbit
    obtain ⟨hold, hne⟩ := testBit_clearBit.mp hbit
    refine ⟨⟨hv, j, hj, hold⟩, ?_⟩
    rintro rfl
    exact hne (some.inj (hi.symm.trans hj))
  next hnone =>
    refine ⟨⟨hv, j, hj, hbit⟩, ?_⟩
    rintro rfl
    simp [hj] at hnone

theorem kObjectUninit_perms (x : A) : (kObjectUninit k s x).perms = s.perms := by
  unfold kObjectUninit
  split <;> rfl

theorem kObjectInit_perms (x : A) : (kObjectInit k s x).perms = s.perms := by
  unfold kObjectInit
  split <;> rfl

theorem hasPerm_kThreadSingleAbort (h : HasPerm k (kThreadSingleAbort k s u) t v) :
    HasPerm k s t v ∧ t ≠ u := by
  obtain ⟨hold, hne⟩ := hasPerm_threadPermsAllClear h
  refine ⟨(hasPerm_congr ?_).mp hold, hne⟩
  rw [kObjectUninit_perms, kObjectUninit_perms]

theorem hasPerm_kObjectAccessGrant (ht : IsThread k t) (hu : IsThread k u)
    (h : HasPerm k (kObjectAccessGrant k s o u) t v) : HasPerm k s t v ∨ v = o ∧ t = u := by
  unfold kObjectAccessGrant at h
  split at h
  · exact hasPerm_threadPermsSet ht hu h
  · exact .inl h

theorem setupNewThread_eq (args : CreateArgs A) : ∃ s₀ : Kernel A n, s₀.perms = s.perms ∧
    setupNewThread k s p u args = if args.options &&& kInheritPerms ≠ 0#32 then
      threadPermsInherit k (kObjectAccessGrant k s₀ u u) p u else kObjectAccessGrant k s₀ u u :=
  ⟨_, by dsimp only; rw [kObjectInit_perms, kObjectInit_perms], rfl⟩

theorem cause_of_setupNewThread {args : CreateArgs A} (ht : IsThread k t) (hu : IsThread k u)
    (hp : ∀ ko ∈ k.find p, ko.type = .thread) (h : HasPerm k (setupNewThread k s p u args) t o) :
    HasPerm k s t o ∨ Cause k s t o (.create p u args) := by
  obtain ⟨s₀, hperms, he⟩ := setupNewThread_eq (k := k) (s := s) (p := p) (u := u) args
  -- before the inheritance a permission is an old one, or the new thread's on itself
  have hbefore : ∀ {x}, IsThread k x → HasPerm k (kObjectAccessGrant k s₀ u u) x o →
      HasPerm k s x o ∨ o = u ∧ x = u := fun hx hxo =>
    (hasPerm_kObjectAccessGrant hx hu hxo).imp_left (hasPerm_congr hperms).mp
  have hown : HasPerm k (kObjectAccessGrant k s₀ u u) t o →
      HasPerm k s t o ∨ Cause k s t o (.create p u args) := by
    intro hto
    rcases hbefore ht hto with hold | ⟨rfl, rfl⟩
    · exact .inl hold
    · exact .inr (.own p args rfl)
  rw [he] at h
  split at h
  next hopt =>
    rcases hasPerm_threadPermsInherit ht hu h with hto | ⟨hpo, hne, rfl⟩
    · exact hown hto
    · rcases hbefore (hpo.isThread hp) hpo with hold | ⟨rfl, rfl⟩
      · exact .inr (.inherited p args hopt hold hne)
      · exact absurd rfl hne
  next => exact hown h

theorem cause_of_handler (ha : CallerIsThread k a) (hs : handler c k s a = some s')
    (ht : IsThread k t) (h : HasPerm k s' t o) : HasPerm k s t o ∨ Cause k s t o a := by
  cases a with
  | grant p x u =>
    simp only [handler] at hs
    split_ifs at hs with hok
    cases hs
    rcases hasPerm_threadPermsSet ht (isThread_of_validate hok.1) h with hold | ⟨rfl, rfl⟩
    · exact .inl hold
    · exact .inr (.granted p (validate_eq_zero hok.2).1)
  | revoke p x u =>
    simp only [handler] at hs
    split_ifs at hs
    cases hs
    exact .inl (hasPerm_threadPermsClear h)
  | create p u args =>
    simp only [handler] at hs
    split_ifs at hs with hok
    cases hs
    exact cause_of_setupNewThread ht (isThread_of_validate hok.1) ha h
  | abort p u =>
    simp only [handler] at hs
    split_ifs at hs
    cases hs
    exact .inl (hasPerm_kThreadSingleAbort h).1

theorem cause_of_step (ha : CallerIsThread k a) (hs : step c k s a = some s') (ht : IsThread k t)
    (h : HasPerm k s' t o) : HasPerm k s t o ∨ Cause k s t o a := by
  unfold step at hs
  split at hs
  next s₁ hok =>
    cases hs
    exact cause_of_handler ha hok ht h
  next =>
    unfold oops at hs
    split_ifs at hs
    cases hs
    exact .inl (hasPerm_kThreadSingleAbort h).1

theorem cause_of_run (hrun : GuardedRun (step c k) (fun _ a => CallerIsThread k a) s s')
    (ht : IsThread k t) (h : HasPerm k s' t o) (hn : ¬ HasPerm k s t o) :
    ∃ u a v, GuardedRun (step c k) (fun _ a => CallerIsThread k a) s u ∧ step c k u a = some v ∧
      Cause k u t o a ∧ GuardedRun (step c k) (fun _ a => CallerIsThread k a) v s' := by
  obtain ⟨u, a, v, hsu, ha, huv, hnu, hv, hvs⟩ :=
    hrun.exists_becomes (P := fun s => HasPerm k s t o) hn h
  exact ⟨u, a, v, hsu, huv, (cause_of_step ha huv ht hv).resolve_left hnu, hvs⟩

/-- Permissions come from threads that have them. A thread that is created again after an abort
starts with those that it was given since, inherits, or has on itself. -/
theorem permissions_have_cause (c : Config) (k : ObjectTable A n) (s s' : Kernel A n) (t : A)
    (hrun : GuardedRun (step c k) (fun _ a => CallerIsThread k a) s s') :
    (IsThread k t → ∀ o, HasPerm k s' t o → ¬ HasPerm k s t o →
      ∃ u a v, GuardedRun (step c k) (fun _ a => CallerIsThread k a) s u ∧ step c k u a = some v ∧
        Cause k u t o a ∧ GuardedRun (step c k) (fun _ a => CallerIsThread k a) v s') ∧
    ∀ s₀ p args s'', s = kThreadSingleAbort k s₀ t → CallerIsThread k (.create p t args) →
      handler c k s' (.create p t args) = some s'' → ∀ o, HasPerm k s'' t o →
        Cause k s' t o (.create p t args) ∨
        ∃ u a v, GuardedRun (step c k) (fun _ a => CallerIsThread k a) s u ∧
          step c k u a = some v ∧ Cause k u t o a ∧
          GuardedRun (step c k) (fun _ a => CallerIsThread k a) v s' := by
  refine ⟨fun ht o h hn => cause_of_run hrun ht h hn, ?_⟩
  rintro _ p _ _ rfl hp hs o ho
  have ht : IsThread k t := by
    simp only [handler] at hs
    split_ifs at hs with hok
    exact isThread_of_validate hok.1
  rcases cause_of_handler hp hs ht ho with hold | hcause
  · exact .inr (cause_of_run hrun ht hold fun hn => (hasPerm_kThreadSingleAbort hn).2 rfl)
  · exact .inl hcause

local instance neZero_four : NeZero 4 := ⟨by decide⟩

def smallTable : ObjectTable (Fin 4) 8 where
  find a := some (if a = 0 then ⟨.thread, 0⟩ else if a = 1 then ⟨.thread, 1⟩
    else if a = 2 then ⟨.threadStackElement, 1024⟩ else ⟨.sem, 0⟩)
  indexLt := by
    intro a o ho
    obtain rfl := Option.some.inj ho
    split_ifs <;> simp
  indexInj := by
    intro a b o p ho hp
    obtain rfl := Option.some.inj ho
    obtain rfl := Option.some.inj hp
    clear ho hp
    revert a b
    decide

def smallKernel : Kernel (Fin 4) 8 where
  perms a := if a = 3 then 3#8 else 1#8
  initialized _ := true
  isPublic _ := false
  userOptions _ := kUser
  prio _ := 0
  stackObj _ := 2

theorem permissions_have_cause_reuse : ∃ s' s'' : Kernel (Fin 4) 8,
    GuardedRun (step ⟨14, -16, 0⟩ smallTable) (fun _ a => CallerIsThread smallTable a)
      (kThreadSingleAbort smallTable smallKernel 1) s' ∧
    handler ⟨14, -16, 0⟩ smallTable s' (.create 0 1 ⟨2, 1024, true, 0, kUser⟩) = some s'' ∧
    HasPerm smallTable smallKernel 1 3 ∧
    ¬ HasPerm smallTable (kThreadSingleAbort smallTable smallKernel 1) 1 3 ∧
    HasPerm smallTable s'' 1 3 ∧
    (Cause smallTable s' 1 3 (.create 0 1 ⟨2, 1024, true, 0, kUser⟩) ∨
      ∃ u a v, GuardedRun (step ⟨14, -16, 0⟩ smallTable) (fun _ a => CallerIsThread smallTable a)
        (kThreadSingleAbort smallTable smallKernel 1) u ∧
        step ⟨14, -16, 0⟩ smallTable u a = some v ∧ Cause smallTable u 1 3 a ∧
        GuardedRun (step ⟨14, -16, 0⟩ smallTable) (fun _ a => CallerIsThread smallTable a)
          v s') := by
  have hgrant : CallerIsThread smallTable (.grant 0 3 1) := by
    rintro ko ⟨⟩
    rfl
  have hcreate : CallerIsThread smallTable (.create 0 1 ⟨2, 1024, true, 0, kUser⟩) := by
    rintro ko ⟨⟩
    rfl
  obtain ⟨s', hs'⟩ : ∃ s', step ⟨14, -16, 0⟩ smallTable
      (kThreadSingleAbort smallTable smallKernel 1) (.grant 0 3 1) = some s' := ⟨_, rfl⟩
  obtain ⟨s'', hs'', hperm⟩ : ∃ s'', handler ⟨14, -16, 0⟩ smallTable s'
      (.create 0 1 ⟨2, 1024, true, 0, kUser⟩) = some s'' ∧ HasPerm smallTable s'' 1 3 := by
    cases hs'
    exact ⟨_, rfl, rfl, 1, rfl, rfl⟩
  have hrun : GuardedRun (step ⟨14, -16, 0⟩ smallTable) (fun _ a => CallerIsThread smallTable a)
      (kThreadSingleAbort smallTable smallKernel 1) s' := .single ⟨_, hgrant, hs'⟩
  exact ⟨s', s'', hrun, hs'', ⟨rfl, 1, rfl, rfl⟩,
    fun h => (hasPerm_kThreadSingleAbort h).2 rfl, hperm,
    (permissions_have_cause _ _ _ _ _ hrun).2 _ _ _ _ rfl hcreate hs'' _ hperm⟩

end Zephyr.Userspace
