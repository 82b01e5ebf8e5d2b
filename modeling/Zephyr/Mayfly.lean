import Zephyr.Memq
import Zephyr.Run

/-! Deferred calls of the Bluetooth controller, `mayfly.c`, seen from one callee: `mayfly_run` is taken
statement by statement, with complete calls of `mayfly_enqueue` in between. No accepted request is
lost if none is made again while it is taken out. Every link has one owner. -/

namespace Zephyr.Callee

open Function

abbrev callerCount : Nat := 4

abbrev Caller := Fin callerCount

structure Mft (L : Type*) where
  head : L
  tail : L
  enableReq : BitVec 8
  enableAck : BitVec 8
  disableReq : BitVec 8
  disableAck : BitVec 8

structure Mayfly (L : Type*) where
  req : BitVec 8
  ack : BitVec 8
  link : L

structure Work (L M : Type*) where
  callerId : Caller
  link : L
  m : M
deriving DecidableEq

/-- The statement of `mayfly_run` that comes next, with the local variables it needs. -/
inductive Pc (L M : Type*) where
  | idle
  | fetch (callerId : Caller)
  | readReq (w : Work L M)
  | getState (w : Work L M) (req : BitVec 8)
  | test (w : Work L M) (state : BitVec 8)
  | mark (w : Work L M)
  | call (w : Work L M)
  | readAgain (w : Work L M) (state : BitVec 8)
  | check (w : Work L M) (state req : BitVec 8)
  | dequeue (w : Work L M) (state req : BitVec 8)
  | release (w : Work L M) (state req : BitVec 8)
  | reset (w : Work L M) (state req : BitVec 8)
  | fetchNext (callerId : Caller) (state : BitVec 8)
  | yield (callerId : Caller) (link : Option (L × M)) (state : BitVec 8)
  | disabling (callerId : Caller)
  | enabling (callerId : Caller)
  | finish
deriving DecidableEq

inductive Event (M : Type*) where
  | accepted (m : M)
  | executed (m : M)
deriving DecidableEq

structure State (L M : Type*) where
  links : MemqLinks L M
  mft : Caller → Mft L
  mayfly : M → Mayfly L
  /-- The callee is pended. -/
  pend : Bool
  pc : Pc L M
  disable : Bool
  enable : Bool
  /-- What has happened, the last event first. -/
  log : List (Event M)

section

variable {L M : Type*} [DecidableEq L] [DecidableEq M]

def nextCaller : Caller → Pc L M
  | ⟨0, _⟩ => .finish
  | ⟨c + 1, hc⟩ => .fetch ⟨c, Nat.lt_of_succ_lt hc⟩

def Mayfly.phase (m : Mayfly L) : BitVec 8 := (m.req - m.ack) &&& 3#8

variable (s : State L M)

def State.phase (m : M) : BitVec 8 := (s.mayfly m).phase

def mayflyEnqueue (callerId : Caller) (chain prioIsEqual isEnabled : Bool) (m : M) (s : State L M) :
    Nat × State L M :=
  let mft := s.mft callerId
  let chain := chain || !prioIsEqual || !isEnabled || mft.disableReq != mft.disableAck
  let f := s.mayfly m
  let state := (f.req - f.ack) &&& 3#8
  if state ≠ 0 ∧ chain then
    if state ≠ 1 then
      (0, { s with mayfly := update s.mayfly m { f with req := f.ack + 1 }, pend := true })
    else (1, s)
  else if ¬ chain then
    -- marked as done if it is in the queue, and called here
    let f' := if state ≠ 0 then { f with req := f.ack + 2 } else f
    (0, { s with
      mayfly := update s.mayfly m f'
      log := .executed m :: s.log })
  else
    (0, { s with
      mayfly := update s.mayfly m { f with req := f.ack + 1 }
      links := memqEnqueue s.links f.link m mft.tail
      mft := update s.mft callerId { mft with tail := f.link }
      pend := true })

def calleeStep : Option (State L M) :=
  match s.pc with
  | .idle =>
    if s.pend then
      some { s with
        pend := false
        disable := false
        enable := false
        pc := .fetch (Fin.last 3) }
    else none
  | .fetch c =>
    match memqPeek s.links (s.mft c).head (s.mft c).tail with
    | some (link, m) => some { s with pc := .readReq ⟨c, link, m⟩ }
    | none => some { s with pc := .disabling c }
  | .readReq w => some { s with pc := .getState w (s.mayfly w.m).req }
  | .getState w req => some { s with pc := .test w ((req - (s.mayfly w.m).ack) &&& 3#8) }
  | .test w state => some { s with pc := if state = 1 then .mark w else .readAgain w state }
  | .mark w =>
    let f := s.mayfly w.m
    some { s with
      mayfly := update s.mayfly w.m { f with ack := f.ack - 1 }
      pc := .call w }
  | .call w => some { s with log := .executed w.m :: s.log, pc := .readAgain w 1 }
  | .readAgain w state => some { s with pc := .check w state (s.mayfly w.m).req }
  | .check w state req =>
    some { s with
      pc := if (req - (s.mayfly w.m).ack) &&& 3#8 ≠ 1 then .dequeue w state req
        else .fetchNext w.callerId state }
  | .dequeue w state req =>
    let mft := s.mft w.callerId
    some { s with
      mft := update s.mft w.callerId
        { mft with head := memqDequeue s.links mft.tail mft.head }
      pc := .release w state req }
  | .release w state req =>
    let f := s.mayfly w.m
    some { s with
      mayfly := update s.mayfly w.m { f with link := w.link }
      pc := .reset w state req }
  | .reset w state req =>
    let f := s.mayfly w.m
    some { s with
      mayfly := update s.mayfly w.m { f with ack := req }
      pc := .fetchNext w.callerId state }
  | .fetchNext c state =>
    some { s with pc := .yield c (memqPeek s.links (s.mft c).head (s.mft c).tail) state }
  | .yield c link state =>
    if state = 1 ∧ (c ≠ 0 ∨ link.isSome) then some { s with pend := true, pc := .idle }
    else
      match link with
      | some (link, m) => some { s with pc := .readReq ⟨c, link, m⟩ }
      | none => some { s with pc := .disabling c }
  | .disabling c =>
    let mft := s.mft c
    if mft.disableReq ≠ mft.disableAck then
      some { s with
        disable := true
        mft := update s.mft c { mft with disableAck := mft.disableReq }
        pc := .enabling c }
    else some { s with pc := .enabling c }
  | .enabling c =>
    let mft := s.mft c
    if mft.enableReq ≠ mft.enableAck then
      some { s with
        enable := true
        mft := update s.mft c { mft with enableAck := mft.enableReq }
        pc := nextCaller c }
    else some { s with pc := nextCaller c }
  | .finish => some { s with pc := .idle }

inductive Act (M : Type*) where
  | enqueue (callerId : Caller) (prioIsEqual isEnabled : Bool) (m : M)
  | callee

def step : Act M → Option (State L M)
  | .enqueue callerId prioIsEqual isEnabled m =>
    match mayflyEnqueue callerId true prioIsEqual isEnabled m s with
    | (0, t) => some { t with log := .accepted m :: t.log }
    | (_, t) => some t
  | .callee => calleeStep s

def Owed (m : M) : List (Event M) → Prop
  | [] => False
  | .accepted m' :: log => m' = m ∨ Owed m log
  | .executed m' :: log => m' ≠ m ∧ Owed m log

def State.Linked (m : M) : Prop :=
  ∃ c, ∃ q, s.links.Holds (s.mft c).tail (s.mft c).head q ∧ m ∈ q.map (·.2)

/-- After `mayfly_init`, with every mayfly idle: no link is used twice. -/
structure Start (s : State L M) : Prop where
  idle : s.pc = .idle
  empty : ∀ c, (s.mft c).head = (s.mft c).tail
  phase : ∀ m, s.phase m = 0
  tails : ∀ c c', (s.mft c).tail = (s.mft c').tail → c = c'
  spare : ∀ m m', (s.mayfly m).link = (s.mayfly m').link → m = m'
  apart : ∀ c m, (s.mft c).tail ≠ (s.mayfly m).link
  log : s.log = []

/-- The mayfly whose request `mayfly_run` has looked at for the second time. -/
def Pc.settling : Pc L M → Option M
  | .check w _ _ => some w.m
  | .dequeue w _ _ => some w.m
  | .release w _ _ => some w.m
  | .reset w _ _ => some w.m
  | _ => none

def Undisturbed : Act M → Prop
  | .enqueue _ _ _ m => s.pc.settling = some m → s.phase m = 1
  | .callee => True

instance Undisturbed.instDecidable (s : State L M) (a : Act M) : Decidable (Undisturbed s a) := by
  cases a
  · exact inferInstanceAs (Decidable (_ → _))
  · exact inferInstanceAs (Decidable True)

end

open List Option

variable {L M : Type*}

inductive Owner (M : Type*) where
  | queue (c : Caller)
  | free (m : M)
  | hand

namespace Pc

def work : Pc L M → Option (Work L M)
  | readReq w => some w
  | getState w _ => some w
  | test w _ => some w
  | mark w => some w
  | call w => some w
  | readAgain w _ => some w
  | check w _ _ => some w
  | dequeue w _ _ => some w
  | _ => none

def ran : Pc L M → Option M
  | call w => some w.m
  | readAgain w _ => some w.m
  | check w _ _ => some w.m
  | dequeue w _ _ => some w.m
  | _ => none

def calling : Pc L M → Option M
  | call w => some w.m
  | _ => none

def hand : Pc L M → Option (Work L M)
  | release w _ _ => some w
  | reset w _ _ => some w
  | _ => none

def leaving : Pc L M → Option M
  | dequeue w _ _ => some w.m
  | release w _ _ => some w.m
  | reset w _ _ => some w.m
  | _ => none

def state : Pc L M → Option (BitVec 8)
  | test _ state => some state
  | readAgain _ state => some state
  | check _ state _ => some state
  | dequeue _ state _ => some state
  | release _ state _ => some state
  | reset _ state _ => some state
  | fetchNext _ state => some state
  | yield _ _ state => some state
  | _ => none

def snapshot : Pc L M → Option (M × BitVec 8)
  | getState w req => some (w.m, req)
  | check w _ req => some (w.m, req)
  | dequeue w _ req => some (w.m, req)
  | release w _ req => some (w.m, req)
  | reset w _ req => some (w.m, req)
  | _ => none

def resetting : Pc L M → Option (Work L M)
  | reset w _ _ => some w
  | _ => none

def fetched : Pc L M → Option (Caller × Option (L × M))
  | yield c x _ => some (c, x)
  | _ => none

def Covers : Pc L M → Caller → Prop
  | idle, _ => False
  | fetch k, c => c ≤ k
  | readReq w, c => c ≤ w.callerId
  | getState w _, c => c ≤ w.callerId
  | test w _, c => c ≤ w.callerId
  | mark w, c => c ≤ w.callerId
  | call w, c => c ≤ w.callerId
  | readAgain w _, c => c ≤ w.callerId
  | check w _ _, c => c ≤ w.callerId
  | dequeue w _ _, c => c ≤ w.callerId
  | release w _ _, c => c ≤ w.callerId
  | reset w _ _, c => c ≤ w.callerId
  | fetchNext k _, c => c ≤ k
  | yield k _ _, c => c ≤ k
  | disabling k, c => c < k
  | enabling k, c => c < k
  | finish, _ => False

def busy : Pc L M → Nat
  | call _ => 1
  | readAgain _ _ => 1
  | check _ _ _ => 1
  | dequeue _ _ _ => 1
  | release _ _ _ => 1
  | reset _ _ _ => 1
  | fetchNext _ _ => 1
  | yield _ _ _ => 1
  | _ => 0

def rank : Pc L M → Nat
  | idle => 0
  | finish => 1
  | enabling c => 100 * c.val + 2
  | disabling c => 100 * c.val + 3
  | yield c _ _ => 100 * c.val + 4
  | fetchNext c _ => 100 * c.val + 5
  | reset w _ _ => 100 * w.callerId.val + 6
  | release w _ _ => 100 * w.callerId.val + 7
  | dequeue w _ _ => 100 * w.callerId.val + 8
  | check w _ _ => 100 * w.callerId.val + 9
  | readAgain w _ => 100 * w.callerId.val + 10
  | call w => 100 * w.callerId.val + 11
  | mark w => 100 * w.callerId.val + 12
  | test w _ => 100 * w.callerId.val + 13
  | getState w _ => 100 * w.callerId.val + 14
  | readReq w => 100 * w.callerId.val + 15
  | fetch c => 100 * c.val + 16

variable {pc : Pc L M}

theorem settling_of_leaving {m : M} (h : pc.leaving = some m) : pc.settling = some m := by
  cases pc <;> first | exact h | cases h

theorem leaving_of_hand {w : Work L M} (h : pc.hand = some w) : pc.leaving = some w.m := by
  cases pc <;> cases h <;> rfl

theorem hand_of_resetting {w : Work L M} (h : pc.resetting = some w) : pc.hand = some w := by
  cases pc <;> first | exact h | cases h

theorem of_snapshot {x : M × BitVec 8} (h : pc.snapshot = some x) :
    pc.settling = some x.1 ∨ ∃ w, pc.work = some w ∧ w.m = x.1 ∧ pc.ran = none := by
  cases pc <;> cases h <;> first | exact .inl rfl | exact .inr ⟨_, rfl, rfl, rfl⟩

end Pc

structure Shape (links : MemqLinks L M) (mft : Caller → Mft L) (q : Caller → List (L × M))
    (own : L → Owner M) (place : M → Option Caller) : Prop where
  holds : ∀ c, links.Holds (mft c).tail (mft c).head (q c)
  owned : ∀ c, ∀ l ∈ (q c).map (·.1), own l = .queue c
  spare : ∀ c, own (mft c).tail = .queue c
  placed : ∀ c m, m ∈ (q c).map (·.2) ↔ place m = some c
  nodup : ∀ c, ((q c).map (·.2)).Nodup

structure Flow (s : State L M) (pc : Pc L M) (q : Caller → List (L × M)) (own : L → Owner M)
    (place : M → Option Caller) : Prop where
  queued : ∀ m c, place m = some c → s.phase m = 1 ∨ s.phase m = 2 ∧ pc.ran = some m
  free : ∀ m, place m = none →
    s.phase m = 0 ∧ own (s.mayfly m).link = .free m ∨ ∃ w, pc.hand = some w ∧ w.m = m
  work : ∀ w, pc.work = some w → ∃ r, q w.callerId = (w.link, w.m) :: r
  state : ∀ st, pc.state = some st → st = 1
  snapshot : ∀ x, pc.snapshot = some x → (s.mayfly x.1).req = x.2
  leaving : ∀ m, pc.leaving = some m → s.phase m = 2
  inHand : ∀ w, pc.hand = some w → place w.m = none ∧ own w.link = .hand
  link : ∀ w, pc.resetting = some w → (s.mayfly w.m).link = w.link
  next : ∀ c x, pc.fetched = some (c, x) → x = (q c).head? ∨ x = none ∧ s.pend = true
  owes : ∀ m, Owed m s.log → place m ≠ none ∧ s.phase m = 1 ∨ pc.calling = some m
  todo : ∀ c, q c ≠ [] → s.pend = true ∨ pc.Covers c

structure Good (s : State L M) (q : Caller → List (L × M)) (own : L → Owner M)
    (place : M → Option Caller) : Prop where
  shape : Shape s.links s.mft q own place
  flow : Flow s s.pc q own place

variable {s t : State L M} {q : Caller → List (L × M)} {own : L → Owner M}
  {place : M → Option Caller} {m : M} {c : Caller} {q' : Caller → List (L × M)}

def ready (s : State L M) (q : Caller → List (L × M)) : Nat :=
  ∑ c, ((q c).map (·.2)).countP fun m => s.phase m = 1

def weight (s : State L M) (q : Caller → List (L × M)) : Nat :=
  (2 * ready s q + s.pc.busy) * 1000 + (if s.pend then 500 else 0) + s.pc.rank

theorem ready_le (hq : ∀ c, ((q' c).map (·.2)).Sublist ((q c).map (·.2)))
    (hphase : ∀ m, t.phase m = 1 → s.phase m = 1) : ready t q' ≤ ready s q := by
  apply Finset.sum_le_sum
  intro c _
  refine Nat.le_trans ((hq c).countP_le) (countP_mono_left ?_)
  intro m _ hm
  simpa using hphase m (by simpa using hm)

theorem weight_lt (hready : ready t q' ≤ ready s q) (hpend : t.pend = s.pend) (hpc : s.pc = pc)
    (hbusy : t.pc.busy ≤ pc.busy) (hrank : t.pc.rank < pc.rank) : weight t q' < weight s q := by
  unfold weight
  rw [hpend, hpc]
  omega

def Advances (s : State L M) (q : Caller → List (L × M)) (t : State L M) : Prop :=
  ∃ q' own place, Good t q' own place ∧ weight t q' < weight s q

theorem Good.flow_at (h : Good s q own place) (hpc : s.pc = pc) : Flow s pc q own place :=
  hpc ▸ h.flow

theorem Good.move {pc pc₀ : Pc L M} (h : Good s q own place) (hpc : s.pc = pc₀)
    (hflow : Flow s pc₀ q own place → Flow s pc q own place) (hbusy : pc.busy ≤ pc₀.busy)
    (hrank : pc.rank < pc₀.rank) : Advances s q { s with pc := pc } :=
  ⟨q, own, place, ⟨h.shape, { hflow (h.flow_at hpc) with }⟩, weight_lt le_rfl rfl hpc hbusy hrank⟩

theorem Start.good (h : Start s) : ∃ q own place, Good s q own place := by
  classical
  let own : L → Owner M := fun l =>
    if hc : ∃ c, (s.mft c).tail = l then .queue hc.choose
    else if hm : ∃ m, (s.mayfly m).link = l then .free hm.choose
    else .hand
  have htail : ∀ c, own (s.mft c).tail = .queue c := by
    intro c
    have hex : ∃ c', (s.mft c').tail = (s.mft c).tail := ⟨c, rfl⟩
    simp only [own, dif_pos hex, h.tails _ _ hex.choose_spec]
  have hlink : ∀ m, own (s.mayfly m).link = .free m := by
    intro m
    have hno : ¬ ∃ c, (s.mft c).tail = (s.mayfly m).link := fun ⟨c, hc⟩ => h.apart c m hc
    have hex : ∃ m', (s.mayfly m').link = (s.mayfly m).link := ⟨m, rfl⟩
    simp only [own, dif_neg hno, dif_pos hex, h.spare _ _ hex.choose_spec]
  refine ⟨fun _ => [], own, fun _ => none, ⟨?_, nofun, htail, ?_, fun _ => .nil⟩, ?_⟩
  · exact h.empty
  · exact fun c m => iff_of_false nofun nofun
  · rw [h.idle]
    exact {
      queued := nofun
      free := fun m _ => .inl ⟨h.phase m, hlink m⟩
      work := nofun
      state := nofun
      snapshot := nofun
      leaving := nofun
      inHand := nofun
      link := nofun
      next := nofun
      owes := by
        intro m ho
        rw [h.log] at ho
        cases ho
      todo := fun c hne => absurd rfl hne }

theorem Good.executed (h : Good s q own place) (hidle : s.pc = .idle) (hpend : s.pend = false)
    (m : M) : ¬ Owed m s.log := by
  intro ho
  have hf := h.flow_at hidle
  obtain ⟨hplace, -⟩ := (hf.owes m ho).resolve_right nofun
  obtain ⟨c, hc⟩ := ne_none_iff_exists'.mp hplace
  have hne : q c ≠ [] := by
    intro hnil
    have hin := (h.shape.placed c m).mpr hc
    rw [hnil] at hin
    cases hin
  obtain hp | hcov := hf.todo c hne
  · rw [hpend] at hp
    cases hp
  · exact hcov

theorem Good.linked (h : Good s q own place) (hidle : s.pc = .idle) (hphase : s.phase m ≠ 0) :
    s.Linked m := by
  have hf := h.flow_at hidle
  have hplace : place m ≠ none := fun hnone =>
    hphase ((hf.free m hnone).resolve_right nofun).1
  obtain ⟨c, hc⟩ := ne_none_iff_exists'.mp hplace
  exact ⟨c, q c, h.shape.holds c, (h.shape.placed c m).mpr hc⟩

variable {w : Work L M} {st req : BitVec 8}

section

variable (h : Good s q own place)
include h

theorem Good.head_placed (hw : s.pc.work = some w) : place w.m = some w.callerId := by
  obtain ⟨r, hr⟩ := h.flow.work w hw
  exact (h.shape.placed w.callerId w.m).mp (by simp [hr])

theorem Good.head_ready (hw : s.pc.work = some w) (hran : s.pc.ran = none) : s.phase w.m = 1 := by
  refine (h.flow.queued w.m _ (h.head_placed hw)).resolve_right fun h2 => ?_
  rw [hran] at h2
  cases h2.2

theorem advances_readReq (hpc : s.pc = .readReq w) :
    Advances s q { s with pc := .getState w (s.mayfly w.m).req } := by
  refine h.move hpc (fun hf => { hf with snapshot := ?_ }) (Nat.zero_le _) (by simp [Pc.rank])
  rintro x ⟨⟩
  rfl

theorem advances_getState (hpc : s.pc = .getState w req) :
    Advances s q { s with pc := .test w ((req - (s.mayfly w.m).ack) &&& 3#8) } := by
  have hready : s.phase w.m = 1 := h.head_ready (by rw [hpc]; rfl) (by rw [hpc]; rfl)
  refine h.move hpc (fun hf => { hf with snapshot := nofun, state := ?_ }) (Nat.zero_le _)
    (by simp [Pc.rank])
  rintro _ ⟨⟩
  have hreq : (s.mayfly w.m).req = req := hf.snapshot (w.m, req) rfl
  rw [← hreq]
  exact hready

theorem advances_test (hpc : s.pc = .test w st) :
    Advances s q { s with pc := if st = 1 then .mark w else .readAgain w st } := by
  have hf := h.flow_at hpc
  rw [if_pos (hf.state st rfl)]
  exact h.move hpc (fun hf => { hf with state := nofun }) (Nat.zero_le _) (by simp [Pc.rank])

theorem advances_call (hpc : s.pc = .call w) :
    Advances s q { s with log := .executed w.m :: s.log, pc := .readAgain w 1 } := by
  have hf := h.flow_at hpc
  refine ⟨q, own, place, ⟨h.shape, { hf with
    state := ?_
    owes := ?_ }⟩, weight_lt le_rfl rfl hpc le_rfl (by simp [Pc.rank])⟩
  · rintro _ ⟨⟩
    rfl
  · rintro m ⟨hne, ho⟩
    exact .inl ((hf.owes m ho).resolve_right fun heq => hne (some.inj heq))

theorem advances_readAgain (hpc : s.pc = .readAgain w st) :
    Advances s q { s with pc := .check w st (s.mayfly w.m).req } := by
  refine h.move hpc (fun hf => { hf with snapshot := ?_ }) le_rfl (by simp [Pc.rank])
  rintro x ⟨⟩
  rfl

theorem advances_check (hpc : s.pc = .check w st req) : Advances s q { s with
      pc := if (req - (s.mayfly w.m).ack) &&& 3#8 ≠ 1 then .dequeue w st req
        else .fetchNext w.callerId st } := by
  have hf := h.flow_at hpc
  have hreq : (s.mayfly w.m).req = req := hf.snapshot (w.m, req) rfl
  have hplace := h.head_placed (w := w) (by rw [hpc]; rfl)
  have hphase : (req - (s.mayfly w.m).ack) &&& 3#8 = s.phase w.m := by
    rw [← hreq]
    rfl
  rw [hphase]
  by_cases h1 : s.phase w.m ≠ 1
  · rw [if_pos h1]
    refine h.move hpc (fun _ => { hf with leaving := ?_ }) le_rfl (by simp [Pc.rank])
    rintro m ⟨⟩
    exact ((hf.queued w.m _ hplace).resolve_left h1).1
  · rw [if_neg h1]
    refine h.move hpc (fun _ => { hf with queued := ?_, work := nofun, snapshot := nofun }) le_rfl
      (by simp [Pc.rank])
    intro m c hc
    refine .inl ((hf.queued m c hc).resolve_right fun h2 => ?_)
    rw [← some.inj h2.2, not_not.mp h1] at h2
    exact absurd h2.1 (by decide)

theorem advances_fetchNext [DecidableEq L] (hpc : s.pc = .fetchNext c st) : Advances s q { s with
      pc := .yield c (memqPeek s.links (s.mft c).head (s.mft c).tail) st } := by
  rw [(h.shape.holds c).peek]
  refine h.move hpc (fun hf => { hf with next := ?_ }) le_rfl (by simp [Pc.rank])
  rintro _ x ⟨⟩
  exact .inl rfl

end

variable {mft : Caller → Mft L}

theorem Good.counters {d e : Bool} (h : Good s q own place) (hflow : Flow s pc q own place)
    (hmft : ∀ c, (mft c).head = (s.mft c).head ∧ (mft c).tail = (s.mft c).tail)
    (hbusy : pc.busy ≤ s.pc.busy) (hrank : pc.rank < s.pc.rank) :
    Advances s q { s with mft := mft, disable := d, enable := e, pc := pc } := by
  have hshape : Shape s.links mft q own place := { h.shape with
    holds := by
      intro c
      rw [(hmft c).1, (hmft c).2]
      exact h.shape.holds c
    spare := by
      intro c
      rw [(hmft c).2]
      exact h.shape.spare c }
  exact ⟨q, own, place, ⟨hshape, { hflow with }⟩, weight_lt le_rfl rfl rfl hbusy hrank⟩

theorem update_counters {f : Mft L} (hf : f.head = (s.mft c).head ∧ f.tail = (s.mft c).tail)
    (c' : Caller) : (update s.mft c f c').head = (s.mft c').head ∧
      (update s.mft c f c').tail = (s.mft c').tail := by
  by_cases hc : c' = c
  · rw [hc, update_self]
    exact hf
  · rw [update_of_ne hc]
    exact ⟨rfl, rfl⟩

theorem nextCaller_flow (hf : Flow s (.enabling c) q own place) :
    Flow s (nextCaller c) q own place ∧ (nextCaller c : Pc L M).busy = 0 ∧
      (nextCaller c : Pc L M).rank < 100 * c.val + 2 := by
  obtain ⟨_ | c, hc⟩ := c
  · refine ⟨{ hf with todo := ?_ }, rfl, by simp [nextCaller, Pc.rank]⟩
    intro c' hne
    exact (hf.todo c' hne).imp_right fun hlt => absurd hlt (Nat.not_lt_zero _)
  · refine ⟨{ hf with todo := ?_ }, rfl, ?_⟩
    · intro c' hne
      exact (hf.todo c' hne).imp_right Nat.le_of_lt_succ
    · simp only [nextCaller, Pc.rank]
      omega

theorem advances_finish (h : Good s q own place) (hpc : s.pc = .finish) :
    Advances s q { s with pc := .idle } :=
  h.move hpc (fun hf => { hf with }) (Nat.zero_le _) (by simp [Pc.rank])

theorem phase_ran {f : Mayfly L} (h : f.phase = 1) :
    ({ f with ack := f.ack - 1 } : Mayfly L).phase = 2 := by
  have hsub : f.req - (f.ack - 1) = f.req - f.ack + 1 := by bv_omega
  have hall : ∀ x : BitVec 8, x &&& 3#8 = 1 → (x + 1) &&& 3#8 = 2 := by decide
  simp only [Mayfly.phase, hsub]
  exact hall _ h

theorem update_other [DecidableEq L] {o o' v : Owner M} {l a : L} (hl : own l = o)
    (ha : own a = o') (hne : o ≠ o') : update own a v l = o := by
  rw [update_of_ne]
  · exact hl
  · rintro rfl
    exact hne (hl.symm.trans ha)

theorem update_sublist {r : List (L × M)} {x : L × M} (hq : q c = x :: r) (c' : Caller) :
    (update q c r c').Sublist (q c') := by
  by_cases hc : c' = c
  · rw [hc, update_self, hq]
    exact sublist_cons_self _ _
  · rw [update_of_ne hc]

variable [DecidableEq M]

theorem phase_update (s : State L M) (m : M) (f : Mayfly L) (m' : M) :
    (update s.mayfly m f m').phase = if m' = m then f.phase else s.phase m' := by
  by_cases h : m' = m
  · rw [h, update_self, if_pos rfl]
  · rw [update_of_ne h, if_neg h]
    rfl

theorem phase_of_update {f : Mayfly L} {m' : M} (hf : f.phase ≠ 1)
    (h : (update s.mayfly m f m').phase = 1) : s.phase m' = 1 := by
  rw [phase_update] at h
  by_cases hm : m' = m
  · rw [if_pos hm] at h
    exact absurd h hf
  · rwa [if_neg hm] at h

theorem ready_lt {f : Mayfly L} (h : Good s q own place) (hw : s.pc.work = some w)
    (hphase : s.phase w.m = 1) (hf : f.phase = 2) (pc : Pc L M) :
    ready { s with mayfly := update s.mayfly w.m f, pc := pc } q < ready s q := by
  have hle : ∀ m, State.phase { s with mayfly := update s.mayfly w.m f, pc := pc } m = 1 →
      s.phase m = 1 :=
    fun m hm => phase_of_update (by rw [hf]; decide) hm
  apply Finset.sum_lt_sum
  · intro c _
    apply countP_mono_left
    intro m _ hm
    simpa using hle m (by simpa using hm)
  · obtain ⟨r, hr⟩ := h.flow.work w hw
    refine ⟨w.callerId, Finset.mem_univ _, ?_⟩
    rw [hr, map_cons, countP_cons, countP_cons]
    have hself : State.phase { s with mayfly := update s.mayfly w.m f, pc := pc } w.m = 2 := by
      simp only [State.phase, phase_update, if_true, hf]
    rw [hself, hphase]
    refine Nat.lt_succ_of_le (countP_mono_left ?_)
    intro m _ hm
    simpa using hle m (by simpa using hm)

theorem advances_mark (h : Good s q own place) (hpc : s.pc = .mark w) : Advances s q { s with
      mayfly := update s.mayfly w.m { s.mayfly w.m with ack := (s.mayfly w.m).ack - 1 }
      pc := .call w } := by
  have hf := h.flow_at hpc
  have hw : s.pc.work = some w := by
    rw [hpc]
    rfl
  have hready : s.phase w.m = 1 := h.head_ready hw (by rw [hpc]; rfl)
  have hplace := h.head_placed hw
  have hran := phase_ran hready
  refine ⟨q, own, place, ⟨h.shape, { hf with
    queued := ?_
    free := ?_
    snapshot := nofun
    leaving := nofun
    link := nofun
    owes := ?_ }⟩, ?_⟩
  · intro m c hc
    simp only [State.phase, phase_update]
    by_cases hm : m = w.m
    · rw [if_pos hm, hran, hm]
      exact .inr ⟨rfl, rfl⟩
    · rw [if_neg hm]
      exact .inl ((hf.queued m c hc).resolve_right fun h2 => nomatch h2.2)
  · intro m hnone
    have hm : m ≠ w.m := by
      rintro rfl
      rw [hplace] at hnone
      cases hnone
    simp only [State.phase, update_of_ne hm]
    exact hf.free m hnone
  · intro m ho
    by_cases hm : m = w.m
    · exact .inr (congrArg some hm.symm)
    · simp only [State.phase, phase_update, if_neg hm]
      exact .inl ((hf.owes m ho).resolve_right nofun)
  · have hlt := ready_lt h hw hready hran (.call w)
    simp only [weight, hpc, Pc.busy, Pc.rank]
    omega

theorem advances_release (h : Good s q own place) (hpc : s.pc = .release w st req) :
    Advances s q { s with
      mayfly := update s.mayfly w.m { s.mayfly w.m with link := w.link }
      pc := .reset w st req } := by
  have hf := h.flow_at hpc
  have hphase : ∀ m, State.phase { s with
      mayfly := update s.mayfly w.m { s.mayfly w.m with link := w.link }
      pc := .reset w st req } m = s.phase m := by
    intro m
    simp only [State.phase, phase_update]
    split
    · rw [‹m = w.m›]
      rfl
    · rfl
  refine ⟨q, own, place, ⟨h.shape, { hf with
    queued := ?_
    free := ?_
    snapshot := ?_
    leaving := ?_
    link := ?_
    owes := ?_ }⟩, weight_lt ?_ rfl hpc le_rfl (by simp [Pc.rank])⟩
  · intro m c hc
    rw [hphase]
    exact hf.queued m c hc
  · intro m hnone
    by_cases hm : m = w.m
    · exact .inr ⟨w, rfl, hm.symm⟩
    · rw [hphase]
      have hfree := (hf.free m hnone).resolve_right fun ⟨w', hw', heq⟩ =>
        hm (heq.symm.trans (congrArg Work.m (some.inj hw').symm))
      simp only [update_of_ne hm]
      exact .inl hfree
  · rintro x ⟨⟩
    simp only [update_self]
    exact hf.snapshot (w.m, req) rfl
  · intro m hm
    rw [hphase]
    exact hf.leaving m hm
  · rintro w' ⟨⟩
    simp
  · intro m ho
    rw [hphase]
    exact hf.owes m ho
  · refine ready_le (fun c => List.Sublist.refl _) fun m hm => ?_
    rwa [hphase] at hm

theorem phase_ready (f : Mayfly L) : ({ f with req := f.ack + 1 } : Mayfly L).phase = 1 := by
  have hsub : f.ack + 1 - f.ack = 1 := by bv_omega
  simp only [Mayfly.phase, hsub]
  rfl

abbrev State.requested (s : State L M) (m : M) : State L M :=
  { s with
    mayfly := update s.mayfly m { s.mayfly m with req := (s.mayfly m).ack + 1 }
    pend := true
    log := .accepted m :: s.log }

theorem Flow.request (hf : Flow s pc q own place) (q' : Caller → List (L × M))
    (own' : L → Owner M) (place' : M → Option Caller) (hm : place' m ≠ none)
    (hplace : ∀ x ≠ m, place' x = place x)
    (hfree : ∀ x ≠ m, own (s.mayfly x).link = .free x → own' (s.mayfly x).link = .free x)
    (hwork : ∀ w, pc.work = some w → ∃ r, q' w.callerId = (w.link, w.m) :: r)
    (hhead : ∀ c, (q c).head? = none ∨ (q' c).head? = (q c).head?)
    (hleaving : pc.leaving ≠ some m) (hsnap : ∀ x, pc.snapshot = some x → x.1 ≠ m)
    (hhand : ∀ w, pc.hand = some w → own' w.link = own w.link) :
    Flow (s.requested m) pc q' own' place' := by
  have hne : ∀ w, pc.hand = some w → w.m ≠ m :=
    fun w hw heq => hleaving (heq ▸ Pc.leaving_of_hand hw)
  exact {
    queued := by
      intro x c hc
      simp only [State.phase, phase_update]
      by_cases hx : x = m
      · rw [if_pos hx, phase_ready]
        exact .inl rfl
      · rw [if_neg hx]
        exact hf.queued x c (hplace x hx ▸ hc)
    free := by
      intro x hnone
      have hx : x ≠ m := fun heq => hm (heq ▸ hnone)
      simp only [State.phase, update_of_ne hx]
      exact (hf.free x (hplace x hx ▸ hnone)).imp_left fun h => ⟨h.1, hfree x hx h.2⟩
    work := hwork
    state := hf.state
    snapshot := by
      intro x hx
      simp only [update_of_ne (hsnap x hx)]
      exact hf.snapshot x hx
    leaving := by
      intro x hl
      have hx : x ≠ m := fun heq => hleaving (heq ▸ hl)
      simp only [State.phase, phase_update, if_neg hx]
      exact hf.leaving x hl
    inHand := by
      intro w hw
      rw [hplace _ (hne w hw), hhand w hw]
      exact hf.inHand w hw
    link := by
      intro w hw
      simp only [update_of_ne (hne w (Pc.hand_of_resetting hw))]
      exact hf.link w hw
    next := by
      intro c x hx
      obtain hx | hx := hf.next c x hx
      · obtain hnil | hsame := hhead c
        · exact .inr ⟨hx.trans hnil, rfl⟩
        · exact .inl (hx.trans hsame.symm)
      · exact .inr ⟨hx.1, rfl⟩
    owes := by
      intro x ho
      simp only [State.phase, phase_update]
      by_cases hx : x = m
      · rw [if_pos hx, phase_ready, hx]
        exact .inl ⟨hm, rfl⟩
      · rw [if_neg hx, hplace x hx]
        exact hf.owes x (ho.resolve_left fun heq => hx heq.symm)
    todo := fun _ _ => .inl rfl }

theorem Good.again (h : Good s q own place) (h0 : s.phase m ≠ 0) (h1 : s.phase m ≠ 1)
    (hset : s.pc.settling ≠ some m) :
    Good (s.requested m) q own place := by
  obtain ⟨hshape, hf⟩ := h
  have hleaving : s.pc.leaving ≠ some m := fun hl => hset (Pc.settling_of_leaving hl)
  have hplace : place m ≠ none := by
    intro hnone
    obtain ⟨hz, -⟩ | ⟨w, hw, rfl⟩ := hf.free m hnone
    · exact h0 hz
    · exact hleaving (Pc.leaving_of_hand hw)
  have hsnap : ∀ x, s.pc.snapshot = some x → x.1 ≠ m := by
    rintro x hx rfl
    obtain hs | ⟨w, hw, hm, hran⟩ := Pc.of_snapshot hx
    · exact hset hs
    · obtain ⟨c, hc⟩ := ne_none_iff_exists'.mp hplace
      obtain hp | ⟨-, hr⟩ := hf.queued _ c hc
      · exact h1 hp
      · rw [hran] at hr
        cases hr
  exact ⟨hshape, hf.request q own place hplace (fun _ _ => rfl) (fun _ _ h => h) hf.work
    (fun _ => .inr rfl) hleaving hsnap fun _ _ => rfl⟩

variable [DecidableEq L] {links : MemqLinks L M} {s₀ : State L M}

theorem enqueue_cases {e p : Bool} (h : step s (.enqueue c p e m) = some t) :
    s.phase m = 1 ∧ t = s ∨
    (s.phase m ≠ 0 ∧ s.phase m ≠ 1 ∧ t = s.requested m) ∨
    (s.phase m = 0 ∧ t = { s.requested m with
        links := memqEnqueue s.links (s.mayfly m).link m (s.mft c).tail
        mft := update s.mft c { s.mft c with tail := (s.mayfly m).link } }) := by
  by_cases h0 : s.phase m = 0
  · have h0' : ((s.mayfly m).req - (s.mayfly m).ack) &&& 3#8 = 0 := h0
    simp only [step, mayflyEnqueue, h0'] at h
    exact .inr (.inr ⟨h0, (some.inj h).symm⟩)
  · have h0' : ((s.mayfly m).req - (s.mayfly m).ack) &&& 3#8 ≠ 0 := h0
    by_cases h1 : s.phase m = 1
    · have h1' : ((s.mayfly m).req - (s.mayfly m).ack) &&& 3#8 = 1 := h1
      simp only [step, mayflyEnqueue, h1'] at h
      exact .inl ⟨h1, (some.inj h).symm⟩
    · have h1' : ((s.mayfly m).req - (s.mayfly m).ack) &&& 3#8 ≠ 1 := h1
      simp only [step, mayflyEnqueue] at h
      rw [if_pos ⟨h0', by simp⟩, if_pos h1'] at h
      exact .inr (.inl ⟨h0, h1, (some.inj h).symm⟩)

theorem Shape.enqueue {link : L}
    (h : Shape links mft q own place) (hown : own link = .free m) (hplace : place m = none)
    (c : Caller) :
    Shape (memqEnqueue links link m (mft c).tail) (update mft c { mft c with tail := link })
      (update q c (q c ++ [((mft c).tail, m)])) (update own link (.queue c))
      (update place m (some c)) := by
  have hlink : ∀ c l, own l = .queue c → l ≠ link := by
    rintro c l hl rfl
    rw [hown] at hl
    cases hl
  exact {
    holds := by
      intro c'
      by_cases hc : c' = c
      · subst hc
        rw [update_self, update_self]
        exact (h.holds c').enqueue (hlink c' _ (h.spare c')).symm
          fun hmem => hlink c' _ (h.owned c' _ hmem) rfl
      · rw [update_of_ne hc, update_of_ne hc]
        refine (h.holds c').enqueue_other fun hmem => hc ?_
        have heq := (h.owned c' _ hmem).symm.trans (h.spare c)
        cases heq
        rfl
    owned := by
      intro c' l hl
      by_cases hc : c' = c
      · subst hc
        rw [update_self, map_append, mem_append] at hl
        obtain hl | hl := hl
        · exact update_other (h.owned c' l hl) hown nofun
        · rw [map_singleton, mem_singleton] at hl
          rw [hl]
          exact update_other (h.spare c') hown nofun
      · rw [update_of_ne hc] at hl
        exact update_other (h.owned c' l hl) hown nofun
    spare := by
      intro c'
      by_cases hc : c' = c
      · subst hc
        rw [update_self]
        exact update_self ..
      · rw [update_of_ne hc]
        exact update_other (h.spare c') hown nofun
    placed := by
      intro c' m'
      by_cases hm : m' = m
      · subst hm
        rw [update_self]
        by_cases hc : c' = c
        · subst hc
          simp
        · have hno : m' ∉ (q c').map (·.2) := by
            rw [h.placed c' m', hplace]
            exact nofun
          rw [update_of_ne hc]
          exact iff_of_false hno fun heq => hc (some.inj heq).symm
      · rw [update_of_ne hm, ← h.placed c' m']
        by_cases hc : c' = c
        · subst hc
          simp [hm]
        · rw [update_of_ne hc]
    nodup := by
      intro c'
      by_cases hc : c' = c
      · subst hc
        rw [update_self, map_append]
        refine (h.nodup c').append (nodup_singleton _) ?_
        rw [map_singleton, disjoint_singleton, h.placed c' m, hplace]
        exact nofun
      · rw [update_of_ne hc]
        exact h.nodup c' }

section

variable (h : Good s q own place)
include h

theorem Good.enqueue (h0 : s.phase m = 0) (c : Caller) : ∃ q own place, Good { s.requested m with
      links := memqEnqueue s.links (s.mayfly m).link m (s.mft c).tail
      mft := update s.mft c { s.mft c with tail := (s.mayfly m).link } } q own place := by
  obtain ⟨hshape, hf⟩ := h
  have hleaving : s.pc.leaving ≠ some m := by
    intro hl
    have h2 := hf.leaving m hl
    rw [h0] at h2
    exact absurd h2 (by decide)
  have hhand : ∀ w, s.pc.hand = some w → w.m ≠ m :=
    fun w hw heq => hleaving (heq ▸ Pc.leaving_of_hand hw)
  have hplace : place m = none := by
    by_contra hsome
    obtain ⟨c', hc'⟩ := ne_none_iff_exists'.mp hsome
    obtain hp | ⟨hp, -⟩ := hf.queued m c' hc'
    · rw [h0] at hp
      exact absurd hp (by decide)
    · rw [h0] at hp
      exact absurd hp (by decide)
  have hown : own (s.mayfly m).link = .free m := by
    obtain ⟨-, ho⟩ | ⟨w, hw, rfl⟩ := hf.free m hplace
    · exact ho
    · exact absurd rfl (hhand w hw)
  have hnotwork : ∀ w, s.pc.work = some w → w.m ≠ m := by
    rintro w hw rfl
    obtain ⟨r, hr⟩ := hf.work w hw
    have hin := (hshape.placed w.callerId w.m).mp (by simp [hr])
    rw [hplace] at hin
    cases hin
  have hsnap : ∀ x, s.pc.snapshot = some x → x.1 ≠ m := by
    rintro x hx rfl
    have hwork : (∃ w, s.pc.work = some w ∧ w.m = x.1) ∨ s.pc.leaving = some x.1 := by
      revert hx
      cases s.pc <;> intro hx <;> cases hx <;>
        first | exact .inr rfl | exact .inl ⟨_, rfl, rfl⟩
    obtain ⟨w, hw, hm⟩ | hl := hwork
    · exact hnotwork w hw hm
    · exact hleaving hl
  have hhead : ∀ c', (q c').head? = none ∨
      (update q c (q c ++ [((s.mft c).tail, m)]) c').head? = (q c').head? := by
    intro c'
    by_cases hc : c' = c
    · subst hc
      rw [update_self]
      cases q c' with
      | nil => exact .inl rfl
      | cons x r => exact .inr rfl
    · rw [update_of_ne hc]
      exact .inr rfl
  refine ⟨_, _, _, hshape.enqueue hown hplace c, { hf.request (update q c _) (update own _ _)
    (update place m (some c)) ?_ ?_ ?_ ?_ hhead hleaving hsnap ?_ with }⟩
  · rw [update_self]
    exact nofun
  · exact fun x hx => update_of_ne hx _ _
  · exact fun x hx hfree => update_other hfree hown fun heq => hx (Owner.free.inj heq)
  · intro w hw
    obtain ⟨r, hr⟩ := hf.work w hw
    by_cases hc : w.callerId = c
    · rw [← hc, update_self, hr]
      exact ⟨_, rfl⟩
    · rw [update_of_ne hc]
      exact ⟨r, hr⟩
  · intro w hw
    obtain ⟨-, hhandown⟩ := hf.inHand w hw
    rw [update_other hhandown hown nofun, hhandown]

theorem Good.request {e p : Bool}
    (hok : Undisturbed s (.enqueue c p e m)) (hstep : step s (.enqueue c p e m) = some t) :
    ∃ q own place, Good t q own place := by
  obtain ⟨-, rfl⟩ | ⟨h0, h1, rfl⟩ | ⟨h0, rfl⟩ := enqueue_cases hstep
  · exact ⟨q, own, place, h⟩
  · exact ⟨q, own, place, h.again h0 h1 fun hset => h1 (hok hset)⟩
  · exact h.enqueue h0 c

theorem advances_idle (hpc : s.pc = .idle) (hstep : calleeStep s = some t) : Advances s q t := by
  have hf := h.flow_at hpc
  simp only [calleeStep, hpc] at hstep
  by_cases hpend : s.pend = true
  · rw [if_pos hpend] at hstep
    cases hstep
    refine ⟨q, own, place, ⟨h.shape, { hf with
      work := nofun
      next := nofun
      todo := fun c _ => .inr (Fin.le_last c) }⟩, ?_⟩
    have hready : ready s q = ready { s with
        pend := false
        disable := false
        enable := false
        pc := .fetch (Fin.last 3) } q := rfl
    simp only [weight, hpend, Pc.busy, Pc.rank, if_true, Bool.false_eq_true, if_false, Fin.val_last]
    omega
  · rw [if_neg hpend] at hstep
    cases hstep

theorem advances_fetch (hpc : s.pc = .fetch c)
    (hstep : calleeStep s = some t) : Advances s q t := by
  simp only [calleeStep, hpc, (h.shape.holds c).peek] at hstep
  cases hq : q c with
  | nil =>
    rw [hq] at hstep
    cases hstep
    refine h.move hpc (fun hf => { hf with work := nofun, next := nofun, todo := ?_ })
      (Nat.zero_le _) (by simp [Pc.rank])
    intro c' hne
    refine (hf.todo c' hne).imp_right fun hle => lt_of_le_of_ne hle ?_
    rintro rfl
    exact hne hq
  | cons x r =>
    rw [hq] at hstep
    cases hstep
    refine h.move hpc (fun hf => { hf with work := ?_, next := nofun }) (Nat.zero_le _)
      (by simp [Pc.rank])
    rintro w ⟨⟩
    exact ⟨r, hq⟩

end

theorem Shape.dequeue {r : List (L × M)}
    (h : Shape links mft q own place) (hq : q w.callerId = (w.link, w.m) :: r) :
    Shape links (update mft w.callerId { mft w.callerId with
        head := memqDequeue links (mft w.callerId).tail (mft w.callerId).head })
      (update q w.callerId r) (update own w.link .hand)
      (update place w.m none) := by
  have hholds := h.holds w.callerId
  rw [hq] at hholds
  obtain ⟨-, -, htail, hfresh, -⟩ := hholds
  have hlink : own w.link = .queue w.callerId := h.owned _ _ (by simp [hq])
  have hsub := update_sublist hq
  have htails : ∀ c, (update mft w.callerId { mft w.callerId with
      head := memqDequeue links (mft w.callerId).tail (mft w.callerId).head } c).tail =
        (mft c).tail := by
    intro c
    by_cases hc : c = w.callerId
    · rw [hc, update_self]
    · rw [update_of_ne hc]
  exact {
    holds := by
      intro c
      by_cases hc : c = w.callerId
      · subst hc
        rw [update_self, update_self]
        have hholds := h.holds w.callerId
        rw [hq] at hholds
        exact hholds.dequeue
      · rw [update_of_ne hc, update_of_ne hc]
        exact h.holds c
    owned := by
      intro c l hl
      have hown := h.owned c l (((hsub c).map _).subset hl)
      rw [update_of_ne]
      · exact hown
      · rintro rfl
        cases hown.symm.trans hlink
        rw [update_self] at hl
        exact hfresh hl
    spare := by
      intro c
      rw [htails, update_of_ne]
      · exact h.spare c
      · intro heq
        have hown := h.spare c
        rw [heq, hlink] at hown
        cases hown
        exact htail heq.symm
    placed := by
      intro c m
      have hmem := h.placed c m
      have hnd := h.nodup w.callerId
      rw [hq, map_cons, nodup_cons] at hnd
      by_cases hm : m = w.m
      · subst hm
        rw [update_self]
        refine iff_of_false ?_ nofun
        by_cases hc : c = w.callerId
        · rw [hc, update_self]
          exact hnd.1
        · rw [update_of_ne hc, hmem]
          have hplace := (h.placed w.callerId w.m).mp (by simp [hq])
          rw [hplace]
          exact fun heq => hc (some.inj heq).symm
      · rw [update_of_ne hm, ← hmem]
        by_cases hc : c = w.callerId
        · rw [hc, update_self, hq, map_cons, mem_cons]
          exact (or_iff_right hm).symm
        · rw [update_of_ne hc]
    nodup := fun c => ((hsub c).map _).nodup (h.nodup c) }

section

variable (h : Good s q own place)
include h

theorem advances_dequeue (hpc : s.pc = .dequeue w st req) : Advances s q { s with
      mft := update s.mft w.callerId { s.mft w.callerId with
        head := memqDequeue s.links (s.mft w.callerId).tail (s.mft w.callerId).head }
      pc := .release w st req } := by
  have hf := h.flow_at hpc
  have h2 := hf.leaving w.m rfl
  obtain ⟨r, hr⟩ := hf.work w rfl
  have hlink : own w.link = .queue w.callerId := h.shape.owned _ _ (by simp [hr])
  have hsub := update_sublist hr
  refine ⟨_, _, _, ⟨h.shape.dequeue hr, { hf with
    queued := ?_
    free := ?_
    work := nofun
    inHand := ?_
    link := nofun
    next := nofun
    owes := ?_
    todo := ?_ }⟩, weight_lt ?_ rfl hpc le_rfl (by simp [Pc.rank])⟩
  · intro m c hc
    have hm : m ≠ w.m := by
      rintro rfl
      rw [update_self] at hc
      cases hc
    rw [update_of_ne hm] at hc
    exact .inl ((hf.queued m c hc).resolve_right fun hran => hm (some.inj hran.2).symm)
  · intro m hnone
    by_cases hm : m = w.m
    · exact .inr ⟨w, rfl, hm.symm⟩
    · rw [update_of_ne hm] at hnone
      have hfree := (hf.free m hnone).resolve_right nofun
      exact .inl ⟨hfree.1, update_other hfree.2 hlink nofun⟩
  · rintro _ ⟨⟩
    exact ⟨update_self .., update_self ..⟩
  · intro m ho
    obtain ⟨hp, h1⟩ := (hf.owes m ho).resolve_right nofun
    have hm : m ≠ w.m := by
      rintro rfl
      rw [h2] at h1
      exact absurd h1 (by decide)
    rw [update_of_ne hm]
    exact .inl ⟨hp, h1⟩
  · intro c hne
    refine hf.todo c fun hnil => hne ?_
    have hs := hsub c
    rw [hnil] at hs
    exact eq_nil_of_sublist_nil hs
  · exact ready_le (fun c => (hsub c).map _) fun m hm => hm

theorem advances_reset (hpc : s.pc = .reset w st req) : Advances s q { s with
      mayfly := update s.mayfly w.m { s.mayfly w.m with ack := req }
      pc := .fetchNext w.callerId st } := by
  have hf := h.flow_at hpc
  have hreq := hf.snapshot (w.m, req) rfl
  obtain ⟨hnone, hown⟩ := hf.inHand w rfl
  have hlink := hf.link w rfl
  have hidle : ({ s.mayfly w.m with ack := req } : Mayfly L).phase = 0 := by
    simp only [Mayfly.phase, hreq, BitVec.sub_self]
    rfl
  have hwork : ∀ m c, place m = some c → m ≠ w.m := by
    rintro m c hc rfl
    rw [hnone] at hc
    cases hc
  refine ⟨q, update own w.link (.free w.m), place, ⟨{ h.shape with
      owned := fun c l hl => update_other (h.shape.owned c l hl) hown nofun
      spare := fun c => update_other (h.shape.spare c) hown nofun }, { hf with
    queued := ?_
    free := ?_
    snapshot := nofun
    leaving := nofun
    inHand := nofun
    link := nofun
    owes := ?_ }⟩, weight_lt ?_ rfl hpc le_rfl (by simp [Pc.rank])⟩
  · intro m c hc
    simp only [State.phase, phase_update, if_neg (hwork m c hc)]
    exact .inl ((hf.queued m c hc).resolve_right fun hr => nomatch hr.2)
  · intro m hn
    simp only [State.phase, phase_update]
    by_cases hm : m = w.m
    · rw [if_pos hm, hidle, hm, update_self]
      refine .inl ⟨rfl, ?_⟩
      simp only [hlink]
      exact update_self ..
    · rw [if_neg hm, update_of_ne hm]
      have hfree := (hf.free m hn).resolve_right fun ⟨w', hw', heq⟩ =>
        hm (heq.symm.trans (congrArg Work.m (some.inj hw').symm))
      exact .inl ⟨hfree.1, update_other hfree.2 hown nofun⟩
  · intro m ho
    obtain ⟨hp, h1⟩ := (hf.owes m ho).resolve_right nofun
    have hm : m ≠ w.m := fun heq => hp (heq ▸ hnone)
    simp only [State.phase, phase_update, if_neg hm]
    exact .inl ⟨hp, h1⟩
  · exact ready_le (fun c => List.Sublist.refl _) fun m hm =>
      phase_of_update (by rw [hidle]; decide) hm

theorem advances_yield {x : Option (L × M)} (hpc : s.pc = .yield c x st)
    (hstep : calleeStep s = some t) : Advances s q t := by
  have hf := h.flow_at hpc
  obtain rfl := hf.state st rfl
  simp only [calleeStep, hpc] at hstep
  by_cases hmore : c ≠ 0 ∨ x.isSome
  · rw [if_pos ⟨trivial, hmore⟩] at hstep
    cases hstep
    refine ⟨q, own, place, ⟨h.shape, { hf with
      state := nofun
      next := nofun
      todo := fun _ _ => .inl rfl }⟩, ?_⟩
    have hready : ready { s with pend := true, pc := .idle } q = ready s q := rfl
    simp only [weight, hpc, Pc.busy, Pc.rank, if_true]
    omega
  · obtain ⟨hc, hx⟩ := not_or.mp hmore
    obtain rfl : x = none := by simpa using hx
    obtain rfl : c = 0 := not_not.mp hc
    cases hstep
    refine h.move hpc (fun _ => { hf with state := nofun, next := nofun, todo := ?_ })
      (Nat.zero_le _) (by simp [Pc.rank])
    intro c' hne
    obtain hp | hle := hf.todo c' hne
    · exact .inl hp
    · obtain rfl : c' = 0 := Fin.le_zero_iff.mp hle
      obtain hnil | hp := hf.next 0 none rfl
      · exact absurd (head?_eq_none_iff.mp hnil.symm) hne
      · exact .inl hp.2

theorem advances_disabling (hpc : s.pc = .disabling c)
    (hstep : calleeStep s = some t) : Advances s q t := by
  have hf := h.flow_at hpc
  have hflow : Flow s (.enabling c) q own place := { hf with }
  have hrank : (Pc.enabling c : Pc L M).rank < s.pc.rank := by
    rw [hpc]
    simp [Pc.rank]
  simp only [calleeStep, hpc] at hstep
  split at hstep
  · cases hstep
    exact h.counters hflow (update_counters ⟨rfl, rfl⟩) (Nat.zero_le _) hrank
  · cases hstep
    exact h.move rfl (fun _ => hflow) (Nat.zero_le _) hrank

theorem advances_enabling (hpc : s.pc = .enabling c)
    (hstep : calleeStep s = some t) : Advances s q t := by
  have hf := h.flow_at hpc
  obtain ⟨hflow, hbusy, hrank⟩ := nextCaller_flow hf
  have hrank' : (nextCaller c : Pc L M).rank < s.pc.rank := by
    rw [hpc]
    exact hrank
  simp only [calleeStep, hpc] at hstep
  split at hstep
  · cases hstep
    exact h.counters hflow (update_counters ⟨rfl, rfl⟩) (by omega) hrank'
  · cases hstep
    exact h.move rfl (fun _ => hflow) (by omega) hrank'

theorem Good.advances (hstep : step s .callee = some t) : Advances s q t := by
  have hs : calleeStep s = some t := hstep
  have hgo : ∀ u, Advances s q u → calleeStep s = some u → Advances s q t := by
    intro u hu heq
    cases heq.symm.trans hs
    exact hu
  cases hpc : s.pc with
  | idle => exact advances_idle h hpc hs
  | fetch c => exact advances_fetch h hpc hs
  | readReq w => exact hgo _ (advances_readReq h hpc) (by rw [calleeStep, hpc])
  | getState w req => exact hgo _ (advances_getState h hpc) (by rw [calleeStep, hpc])
  | test w st => exact hgo _ (advances_test h hpc) (by rw [calleeStep, hpc])
  | mark w => exact hgo _ (advances_mark h hpc) (by rw [calleeStep, hpc])
  | call w => exact hgo _ (advances_call h hpc) (by rw [calleeStep, hpc])
  | readAgain w st => exact hgo _ (advances_readAgain h hpc) (by rw [calleeStep, hpc])
  | check w st req => exact hgo _ (advances_check h hpc) (by rw [calleeStep, hpc])
  | dequeue w st req => exact hgo _ (advances_dequeue h hpc) (by rw [calleeStep, hpc])
  | release w st req => exact hgo _ (advances_release h hpc) (by rw [calleeStep, hpc])
  | reset w st req => exact hgo _ (advances_reset h hpc) (by rw [calleeStep, hpc])
  | fetchNext c st => exact hgo _ (advances_fetchNext h hpc) (by rw [calleeStep, hpc])
  | yield c x st => exact advances_yield h hpc hs
  | disabling c => exact advances_disabling h hpc hs
  | enabling c => exact advances_enabling h hpc hs
  | finish => exact hgo _ (advances_finish h hpc) (by rw [calleeStep, hpc])

end

theorem good_of_run (h₀ : Start s₀) (h : GuardedRun step Undisturbed s₀ s) :
    ∃ q own place, Good s q own place := by
  have hstep : ∀ (s : State L M) (a : Act M) t, (∃ q own place, Good s q own place) →
      Undisturbed s a →
      step s a = some t → ∃ q own place, Good t q own place := by
    rintro s a t ⟨q, own, place, hgood⟩ hok hst
    cases a with
    | enqueue c p e m => exact hgood.request hok hst
    | callee =>
      obtain ⟨q, own, place, hgood, -⟩ := hgood.advances hst
      exact ⟨q, own, place, hgood⟩
  exact h.invariant (P := fun s => ∃ q own place, Good s q own place) hstep h₀.good

theorem callee_stuck (h : step s .callee = none) : s.pc = .idle ∧ s.pend = false := by
  simp only [step, calleeStep] at h
  cases hpc : s.pc with
  | idle =>
    simp only [hpc] at h
    split at h
    · cases h
    · exact ⟨rfl, Bool.eq_false_of_not_eq_true ‹_›⟩
  | fetch c | yield c x st | disabling c | enabling c =>
    simp only [hpc] at h
    split at h <;> first | cases h | (split at h <;> cases h)
  | _ =>
    simp only [hpc] at h
    cases h

/-- Left alone, the callee serves every pend. -/
theorem Good.settles (h : Good s q own place) :
    ∃ t, GuardedRun step (fun _ a => a = Act.callee) s t ∧ t.pc = .idle ∧ t.pend = false := by
  induction hn : weight s q using Nat.strong_induction_on generalizing s q own place with
  | _ n ih =>
    cases hs : step s .callee with
    | none => exact ⟨s, .refl, callee_stuck hs⟩
    | some u =>
      obtain ⟨_, _, _, hu, hlt⟩ := h.advances hs
      obtain ⟨t, hrun, ht⟩ := ih _ (hn ▸ hlt) hu rfl
      exact ⟨t, hrun.head ⟨.callee, rfl, hs⟩, ht⟩

/-- In every undisturbed run the requests that were accepted are carried out when the callee has
served its pends, which it does, and an idle callee has every busy mayfly in a queue. -/
theorem requests_executed (h₀ : Start s₀) (h : GuardedRun step Undisturbed s₀ s) :
    (s.pc = .idle → s.pend = false → ∀ m, ¬ Owed m s.log) ∧
    (s.pc = .idle → ∀ m, s.phase m ≠ 0 → s.Linked m) ∧
    ∃ t, GuardedRun step (fun _ a => a = Act.callee) s t ∧ t.pc = .idle ∧ t.pend = false ∧
      ∀ m, ¬ Owed m t.log := by
  obtain ⟨q, _, _, hgood⟩ := good_of_run h₀ h
  refine ⟨hgood.executed, fun hidle m => hgood.linked hidle, ?_⟩
  obtain ⟨t, hrun, hidle, hpend⟩ := hgood.settles
  have hrun' : GuardedRun step Undisturbed s t := hrun.imp fun s a ha => ha ▸ trivial
  obtain ⟨_, _, _, hgood'⟩ := good_of_run h₀ (h.trans hrun')
  exact ⟨t, hrun, hidle, hpend, hgood'.executed hidle hpend⟩

def start : State Nat Bool where
  links := ⟨id, fun _ => false⟩
  mft c := ⟨c.val, c.val, 0, 0, 0, 0⟩
  mayfly m := ⟨0, 0, if m then 5 else 4⟩
  pend := false
  pc := .idle
  disable := false
  enable := false
  log := []

theorem start_start : Start start where
  idle := rfl
  empty _ := rfl
  phase m := by cases m <;> rfl
  tails _ _ h := Fin.ext h
  spare := by decide
  apart := by decide
  log := rfl

local instance neZero_four : NeZero 4 := ⟨by decide⟩

def twoRequests : Option (State Nat Bool) :=
  ([Act.enqueue 2 false true false] ++ replicate 9 Act.callee ++
    [Act.enqueue 0 false false true, Act.enqueue 2 false true true]).foldlM
    (fun s a => if Undisturbed s a then step s a else none) start

theorem twoRequests_isSome : twoRequests.isSome := by decide +kernel

theorem twoRequests_executed :
    ∃ t, GuardedRun step (fun _ a => a = Act.callee) (twoRequests.get twoRequests_isSome) t ∧
      t.pc = .idle ∧ t.pend = false ∧ ∀ m, ¬ Owed m t.log :=
  (requests_executed start_start (.of_foldlM step Undisturbed _
    (some_get twoRequests_isSome).symm)).2.2

def lateRequest : Option (State Nat Bool) :=
  ([Act.enqueue 0 false true false] ++ replicate 17 Act.callee ++
    [Act.enqueue 0 false true false] ++ replicate 23 Act.callee).foldlM step start

theorem lateRequest_isSome : lateRequest.isSome := by decide +kernel

theorem late_request_lost : ∃ s, lateRequest = some s ∧ s.pc = .idle ∧ s.pend = false ∧
    Owed false s.log ∧ s.phase false = 3 ∧ ¬ s.Linked false := by
  refine ⟨lateRequest.get lateRequest_isSome, (some_get _).symm, by decide +kernel,
    by decide +kernel, ?_, by decide +kernel, ?_⟩
  · exact .inl rfl
  · rintro ⟨c, q, hq, hmem⟩
    have hempty : ∀ c, ((lateRequest.get lateRequest_isSome).mft c).head =
        ((lateRequest.get lateRequest_isSome).mft c).tail := by decide +kernel
    rw [hempty c] at hq
    rw [hq.eq_nil] at hmem
    cases hmem

end Zephyr.Callee
