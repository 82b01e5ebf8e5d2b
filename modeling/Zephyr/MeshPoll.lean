import Zephyr.Run

/-! The polls of a Low Power Node and the answers of its Friend. One bit of a poll tells whether the
last answer has been heard. An answer has no such bit, so a node that asks again while the answer is
on the air, and then hears it, takes the next copy of it for a new one. -/

namespace Zephyr.Mesh

open List Option

variable {P : Type*}

/-- A friendship of `bt_mesh.frnd`, with what a poll and its answer go by. -/
structure Frnd (P : Type*) where
  fsn : Bool
  sendLast : Bool
  pendingReq : Bool
  pendingBuf : Bool
  established : Bool
  last : Option P
  queue : List P

def enqueueUpdate (f : Frnd P) (fsn : Bool) (update : P) : List P :=
  if f.pendingBuf || (fsn == f.fsn && f.last.isSome) || !f.queue.isEmpty then [] else [update]

def btMeshFriendPoll (f : Frnd P) (fsn : Bool) (update : P) : Frnd P :=
  if f.pendingBuf then f
  else
    let f' := { f with pendingReq := true, established := true }
    if fsn == f.fsn && f.last.isSome then { f' with sendLast := true }
    else { f' with last := none, fsn := fsn, queue := f.queue ++ enqueueUpdate f fsn update }

def friendTimeout (f : Frnd P) : Option (Frnd P × P) :=
  match if f.sendLast then f.last else none with
  | some p => some ({ f with sendLast := false, pendingReq := false, pendingBuf := true }, p)
  | none =>
    if f.established && !f.pendingReq then none
    else
      match f.queue with
      | [] => none
      | p :: queue =>
        some ({ f with last := some p, queue, pendingReq := false, pendingBuf := true }, p)

def bufSendStart (f : Frnd P) : Frnd P :=
  { f with pendingBuf := false, last := if f.established then f.last else none }

/-- The two nodes: `adv` is the PDU that waits for the advertiser and `air` the one that is being
sent; `heard` is what the Low Power Node has got, `enqueued` all that the queue has. -/
structure Link (P : Type*) where
  frnd : Frnd P
  fsn : Bool
  adv : Option P
  air : Option P
  heard : List P
  enqueued : List P
  cleared : Bool

inductive PollAct (P : Type*) where
  | enqueue (pdus : List P)
  | poll (received : Bool) (update : P)
  | timeout
  | sendStart
  | hear
  | sendEnd

/-- The Low Power Node has another FSN in its next poll once it has heard an answer. An answer that
is not heard until its sending ends is lost. -/
def pollStep (s : Link P) : PollAct P → Option (Link P)
  | .enqueue pdus =>
    if s.frnd.established then
      some { s with
        frnd := { s.frnd with queue := s.frnd.queue ++ pdus }, enqueued := s.enqueued ++ pdus }
    else none
  | .poll false _ => some s
  | .poll true update =>
    some { s with
      frnd := btMeshFriendPoll s.frnd s.fsn update
      enqueued := s.enqueued ++ enqueueUpdate s.frnd s.fsn update }
  | .timeout =>
    match friendTimeout s.frnd with
    | none => some { s with cleared := true }
    | some (f, p) => some { s with frnd := f, adv := some p }
  | .sendStart =>
    match s.adv with
    | none => none
    | some p => some { s with frnd := bufSendStart s.frnd, adv := none, air := some p }
  | .hear =>
    match s.air with
    | none => none
    | some p => some { s with air := none, heard := s.heard ++ [p], fsn := !s.fsn }
  | .sendEnd => some { s with air := none }

/-- The timer only ends the delay before an answer, and an answer is heard only if no poll has come
in since its sending began. -/
def Undisturbed (s : Link P) : PollAct P → Prop
  | .timeout => s.frnd.pendingReq = true
  | .hear => s.frnd.pendingReq = false ∧ s.frnd.pendingBuf = false
  | _ => True

variable {s s' : Link P} {p : P} {a : PollAct P}

def outstanding (s : Link P) : List P :=
  if s.fsn = s.frnd.fsn then s.frnd.last.toList else []

structure Alternates (s : Link P) : Prop where
  enqueued : s.heard ++ (outstanding s ++ s.frnd.queue) = s.enqueued
  cleared : s.cleared = false
  pendingBuf : s.frnd.pendingBuf = s.adv.isSome
  asked : s.frnd.pendingReq = true → s.fsn = s.frnd.fsn ∧ s.frnd.pendingBuf = false ∧
    (s.frnd.last = none ∧ s.frnd.queue ≠ [] ∨ s.frnd.last.isSome ∧ s.frnd.sendLast = true)
  adv : ∀ p, s.adv = some p → s.fsn = s.frnd.fsn ∧ s.frnd.last = some p ∧ s.frnd.established = true
  air : ∀ p, s.air = some p → s.frnd.pendingReq = false → s.frnd.pendingBuf = false →
    s.fsn = s.frnd.fsn ∧ s.frnd.last = some p
  established : s.frnd.pendingReq = true → s.frnd.established = true

section

variable (h : Alternates s)
include h

theorem Alternates.enqueue (pdus : List P) : Alternates { s with
    frnd := { s.frnd with queue := s.frnd.queue ++ pdus }, enqueued := s.enqueued ++ pdus } := by
  refine { h with enqueued := ?_, asked := fun hreq => ?_ }
  · rw [← h.enqueued]
    simp [outstanding]
  · obtain ⟨h1, h2, h3⟩ := h.asked hreq
    refine ⟨h1, h2, h3.imp_left fun ⟨hlast, hne⟩ => ⟨hlast, ?_⟩⟩
    exact fun hnil => hne (append_eq_nil_iff.mp hnil).1

theorem Alternates.adv_eq_none (hbuf : s.frnd.pendingBuf = false) : s.adv = none := by
  rw [h.pendingBuf] at hbuf
  simpa using hbuf

theorem Alternates.poll (update : P) : Alternates { s with
    frnd := btMeshFriendPoll s.frnd s.fsn update
    enqueued := s.enqueued ++ enqueueUpdate s.frnd s.fsn update } := by
  cases hbuf : s.frnd.pendingBuf with
  | true =>
    rw [btMeshFriendPoll, if_pos hbuf, enqueueUpdate, hbuf, Bool.true_or, Bool.true_or, if_pos rfl,
      append_nil]
    exact h
  | false =>
    have hadv := h.adv_eq_none hbuf
    unfold btMeshFriendPoll
    rw [if_neg (by simp [hbuf])]
    by_cases hlast : (s.fsn == s.frnd.fsn && s.frnd.last.isSome) = true
    · have hsame : enqueueUpdate s.frnd s.fsn update = [] := by simp [enqueueUpdate, hlast]
      obtain ⟨hfsn, hsome⟩ : s.fsn = s.frnd.fsn ∧ s.frnd.last.isSome = true := by simpa using hlast
      rw [if_pos hlast, hsame, append_nil]
      exact ⟨h.enqueued, h.cleared, h.pendingBuf, fun _ => ⟨hfsn, hbuf, .inr ⟨hsome, rfl⟩⟩,
        fun p hp => (nomatch hadv.symm.trans hp), nofun, fun _ => rfl⟩
    · have hout : outstanding s = [] := by
        unfold outstanding
        split
        · next hfsn => simpa [hfsn] using hlast
        · rfl
      have hqueue : s.frnd.queue ++ enqueueUpdate s.frnd s.fsn update ≠ [] := by
        unfold enqueueUpdate
        rw [hbuf, Bool.eq_false_iff.mpr hlast]
        cases s.frnd.queue <;> simp
      rw [if_neg hlast]
      refine ⟨?_, h.cleared, h.pendingBuf, fun _ => ⟨rfl, hbuf, .inl ⟨rfl, hqueue⟩⟩,
        fun p hp => (nomatch hadv.symm.trans hp), nofun, fun _ => rfl⟩
      rw [← h.enqueued, hout]
      simp [outstanding]

theorem Alternates.timeout (hreq : s.frnd.pendingReq = true) :
    ∃ f p, friendTimeout s.frnd = some (f, p) ∧ f.pendingReq = false ∧
      Alternates { s with frnd := f, adv := some p } := by
  have hest := h.established hreq
  obtain ⟨hfsn, hbuf, ⟨hlast, hne⟩ | ⟨hlast, hsend⟩⟩ := h.asked hreq
  · obtain ⟨p, queue, hqueue⟩ := exists_cons_of_ne_nil hne
    refine ⟨{ s.frnd with last := some p, queue, pendingReq := false, pendingBuf := true }, p, ?_,
      rfl, ?_, h.cleared, rfl, nofun, ?_, nofun,
      nofun⟩
    · simp [friendTimeout, hlast, hreq, hqueue]
    · rw [← h.enqueued]
      simp [outstanding, hfsn, hlast, hqueue]
    · rintro q hq
      exact ⟨hfsn, hq, hest⟩
  · obtain ⟨p, hp⟩ := isSome_iff_exists.mp hlast
    refine ⟨{ s.frnd with sendLast := false, pendingReq := false, pendingBuf := true }, p, ?_,
      rfl, h.enqueued, h.cleared, rfl, nofun, ?_, nofun,
      nofun⟩
    · simp [friendTimeout, hsend, hp]
    · rintro q hq
      exact ⟨hfsn, hp.trans hq, hest⟩

theorem Alternates.pendingReq_of_adv (hadv : s.adv = some p) : s.frnd.pendingReq = false := by
  have hbuf : s.frnd.pendingBuf = true := by rw [h.pendingBuf, hadv]; rfl
  refine Bool.eq_false_iff.mpr fun hreq => ?_
  exact absurd hbuf (by simp [(h.asked hreq).2.1])

theorem Alternates.sendStart (hadv : s.adv = some p) :
    Alternates { s with frnd := bufSendStart s.frnd, adv := none, air := some p } := by
  obtain ⟨hfsn, hlast, hest⟩ := h.adv p hadv
  have hstart : bufSendStart s.frnd = { s.frnd with pendingBuf := false } := by
    rw [bufSendStart, if_pos hest]
  rw [hstart]
  refine ⟨h.enqueued, h.cleared, rfl, ?_, nofun, ?_, h.established⟩
  · exact fun hf => nomatch (h.pendingReq_of_adv hadv).symm.trans hf
  · rintro q hq - -
    exact ⟨hfsn, hlast.trans hq⟩

theorem Alternates.hear (hair : s.air = some p)
    (hreq : s.frnd.pendingReq = false) (hbuf : s.frnd.pendingBuf = false) :
    Alternates { s with air := none, heard := s.heard ++ [p], fsn := !s.fsn } := by
  obtain ⟨hfsn, hlast⟩ := h.air p hair hreq hbuf
  have hadv := h.adv_eq_none hbuf
  refine ⟨?_, h.cleared, h.pendingBuf, fun hf => (nomatch hreq.symm.trans hf),
    fun q hq => (nomatch hadv.symm.trans hq), nofun, h.established⟩
  rw [← h.enqueued]
  simp [outstanding, hfsn, hlast]

theorem Alternates.sendEnd : Alternates { s with air := none } :=
  { h with air := nofun }

theorem alternates_step (ha : Undisturbed s a)
    (hstep : pollStep s a = some s') : Alternates s' := by
  cases a with
  | enqueue pdus =>
    rw [pollStep] at hstep
    split at hstep
    · exact some.inj hstep ▸ h.enqueue pdus
    · cases hstep
  | poll received update =>
    cases received with
    | false => exact some.inj hstep ▸ h
    | true => exact some.inj hstep ▸ h.poll update
  | timeout =>
    obtain ⟨f, p, hf, -, hs⟩ := h.timeout ha
    rw [pollStep, hf] at hstep
    exact some.inj hstep ▸ hs
  | sendStart =>
    rw [pollStep] at hstep
    split at hstep
    · cases hstep
    · next p hadv => exact some.inj hstep ▸ h.sendStart hadv
  | hear =>
    rw [pollStep] at hstep
    split at hstep
    · cases hstep
    · next p hair => exact some.inj hstep ▸ h.hear hair ha.1 ha.2
  | sendEnd => exact some.inj hstep ▸ h.sendEnd

end

def toHear (s : Link P) : List P := outstanding s ++ s.frnd.queue

theorem Alternates.toHear_eq (h : Alternates s) (h' : Alternates s')
    (hheard : s'.heard = s.heard) (henq : s'.enqueued = s.enqueued) : toHear s' = toHear s := by
  have heq := h'.enqueued
  rw [henq, ← h.enqueued, hheard] at heq
  exact append_cancel_left heq

def HearsNext (s : Link P) (p : P) : Prop :=
  ∃ s', GuardedRun pollStep Undisturbed s s' ∧ s'.heard = s.heard ++ [p] ∧ s'.enqueued = s.enqueued

theorem HearsNext.of_step (hstep : pollStep s a = some s') (ha : Undisturbed s a)
    (hheard : s'.heard = s.heard) (henq : s'.enqueued = s.enqueued) (h : HearsNext s' p) :
    HearsNext s p := by
  obtain ⟨t, hrun, h1, h2⟩ := h
  exact ⟨t, .head ⟨a, ha, hstep⟩ hrun, h1.trans (by rw [hheard]), h2.trans henq⟩

variable {rest : List P}

section

variable (h : Alternates s)
include h

theorem Alternates.hearsNext_adv {q : P}
    (hto : toHear s = p :: rest) (hadv : s.adv = some q) : HearsNext s p := by
  obtain ⟨hfsn, hlast, hest⟩ := h.adv q hadv
  rw [toHear, outstanding, if_pos hfsn, hlast] at hto
  obtain ⟨rfl, -⟩ := cons.inj hto
  have hstart : pollStep s .sendStart =
      some { s with frnd := bufSendStart s.frnd, adv := none, air := some q } := by
    rw [pollStep, hadv]
  exact ⟨_, .tail (.single ⟨.sendStart, trivial, hstart⟩)
    ⟨.hear, ⟨h.pendingReq_of_adv hadv, rfl⟩, rfl⟩, rfl, rfl⟩

theorem Alternates.hearsNext_asked
    (hto : toHear s = p :: rest) (hreq : s.frnd.pendingReq = true) : HearsNext s p := by
  obtain ⟨f, q, hf, -, hs⟩ := h.timeout hreq
  have hstep : pollStep s .timeout = some { s with frnd := f, adv := some q } := by
    rw [pollStep, hf]
  exact .of_step hstep hreq rfl rfl (hs.hearsNext_adv ((h.toHear_eq hs rfl rfl).trans hto) rfl)

theorem Alternates.hearsNext (hto : toHear s = p :: rest) : HearsNext s p := by
  by_cases hreq : s.frnd.pendingReq = true
  · exact h.hearsNext_asked hto hreq
  cases hadv : s.adv with
  | some q => exact h.hearsNext_adv hto hadv
  | none =>
    have hbuf : s.frnd.pendingBuf = false := by rw [h.pendingBuf, hadv]; rfl
    -- the node asks, and the queue is not empty unless the last PDU is to be sent again
    have henq : enqueueUpdate s.frnd s.fsn p = [] := by
      unfold enqueueUpdate
      rw [if_pos]
      by_contra hnone
      obtain ⟨⟨-, hlast⟩, hqueue⟩ : (s.frnd.pendingBuf = false ∧
          (s.fsn = s.frnd.fsn → s.frnd.last = none)) ∧ s.frnd.queue = [] := by
        simpa using hnone
      rw [toHear, outstanding, hqueue] at hto
      split at hto
      · next hfsn => simp [hlast hfsn] at hto
      · cases hto
    have hpoll := h.poll p
    rw [henq, append_nil] at hpoll
    have hstep : pollStep s (.poll true p) =
        some { s with frnd := btMeshFriendPoll s.frnd s.fsn p } := by
      rw [pollStep, henq, append_nil]
    refine .of_step hstep trivial rfl rfl
      (hpoll.hearsNext_asked ((h.toHear_eq hpoll rfl rfl).trans hto) ?_)
    show (btMeshFriendPoll s.frnd s.fsn p).pendingReq = true
    rw [btMeshFriendPoll, if_neg (by simp [hbuf])]
    split <;> rfl

theorem alternates_run (hrun : GuardedRun pollStep Undisturbed s s') : Alternates s' :=
  hrun.invariant (fun _ _ _ => alternates_step) h

theorem Alternates.hears_all : ∃ s', GuardedRun pollStep Undisturbed s s' ∧ s'.heard = s.enqueued ∧
      s'.enqueued = s.enqueued := by
  obtain ⟨rest, hrest⟩ : ∃ rest, toHear s = rest := ⟨_, rfl⟩
  induction rest generalizing s with
  | nil =>
    refine ⟨s, .refl, ?_, rfl⟩
    have heq := h.enqueued
    rw [show outstanding s ++ s.frnd.queue = [] from hrest, append_nil] at heq
    exact heq
  | cons p rest ih =>
    obtain ⟨t, hrun, hheard, henq⟩ := h.hearsNext hrest
    have ht := alternates_run h hrun
    have hto : toHear t = rest := by
      have heq := ht.enqueued
      rw [henq, ← h.enqueued, hheard, append_assoc] at heq
      have := append_cancel_left heq
      rw [show outstanding s ++ s.frnd.queue = p :: rest from hrest] at this
      exact (cons.inj this).2
    obtain ⟨s', hrun', hheard', henq'⟩ := ih ht hto
    exact ⟨s', hrun.trans hrun', hheard'.trans henq, henq'.trans henq⟩

end

structure Fresh (s : Link P) : Prop where
  last : s.frnd.last = none
  queue : s.frnd.queue = []
  pendingReq : s.frnd.pendingReq = false
  pendingBuf : s.frnd.pendingBuf = false
  adv : s.adv = none
  air : s.air = none
  heard : s.heard = []
  enqueued : s.enqueued = []
  cleared : s.cleared = false

theorem Fresh.alternates (h : Fresh s) : Alternates s where
  enqueued := by simp [h.heard, h.queue, h.enqueued, outstanding, h.last]
  cleared := h.cleared
  pendingBuf := by simp [h.pendingBuf, h.adv]
  asked := by simp [h.pendingReq]
  adv := by simp [h.adv]
  air := by simp [h.air]
  established := by simp [h.pendingReq]

def offered : Link Nat := ⟨⟨false, false, false, false, false, none, []⟩, false, none, none, [], [],
  false⟩

instance (s : Link P) : (a : PollAct P) → Decidable (Undisturbed s a)
  | .timeout => inferInstanceAs (Decidable (_ = _))
  | .hear => inferInstanceAs (Decidable (_ ∧ _))
  | .enqueue _ | .poll _ _ | .sendStart | .sendEnd => .isTrue trivial

end Zephyr.Mesh
