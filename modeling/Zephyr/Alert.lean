import Zephyr.Run

/-! Alerts of `kernel/alert.c` with a handler function. The sender that finds the count at zero
submits the work item, and the work queue thread calls the handler until it has counted down to
zero again. -/

namespace Zephyr.Alert

/-- Where the work queue thread is with the alert's work item: between `k_queue_get` and the test of
the pending bit, before a call of the handler, or before `atomic_dec`. -/
inductive Worker where
  | idle
  | got
  | handler
  | counting
deriving DecidableEq

/-- `submitting` and `appending` are the senders that have found the count at zero, before and after
they have set the pending bit; `queued` is how often the work item is in the queue. -/
structure KAlert where
  sendCount : BitVec 32
  pending : Bool
  submitting : Nat
  appending : Nat
  queued : Nat
  worker : Worker
  sends : Nat
  calls : Nat

def kAlertInit : KAlert := ⟨0, false, 0, 0, 0, .idle, 0, 0⟩

inductive Act where
  | send
  | submit
  | append
  | get
  | clear
  | call
  | dec
deriving DecidableEq

def step (s : KAlert) : Act → Option KAlert
  | .send => some { s with
      sendCount := s.sendCount + 1
      submitting := if s.sendCount = 0 then s.submitting + 1 else s.submitting
      sends := s.sends + 1 }
  | .submit =>
    if s.submitting = 0 then none
    else if s.pending then some { s with submitting := s.submitting - 1 }
    else some { s with
      submitting := s.submitting - 1
      pending := true
      appending := s.appending + 1 }
  | .append =>
    if s.appending = 0 then none
    else some { s with appending := s.appending - 1, queued := s.queued + 1 }
  | .get =>
    if s.worker = .idle ∧ s.queued ≠ 0 then some { s with queued := s.queued - 1, worker := .got }
    else none
  | .clear =>
    if s.worker = .got then
      if s.pending then some { s with pending := false, worker := .handler }
      else some { s with worker := .idle }
    else none
  | .call =>
    if s.worker = .handler then some { s with calls := s.calls + 1, worker := .counting } else none
  | .dec =>
    if s.worker = .counting then some { s with
      sendCount := s.sendCount - 1
      worker := if s.sendCount = 1 then .idle else .handler }
    else none

def Few (s : KAlert) (a : Act) : Prop := a = .send → s.sendCount ≠ 0xFFFFFFFF#32

instance (s : KAlert) (a : Act) : Decidable (Few s a) := inferInstanceAs (Decidable (_ → _))

/-- The states in which one sender, the queue or the work queue thread has the work item in hand as
long as the count is positive. -/
inductive Inv : KAlert → Prop
  | idle (n : Nat) : Inv ⟨0, false, 0, 0, 0, .idle, n, n⟩
  | submitting (c : BitVec 32) (n : Nat) (hc : c ≠ 0) :
    Inv ⟨c, false, 1, 0, 0, .idle, n + c.toNat, n⟩
  | appending (c : BitVec 32) (n : Nat) (hc : c ≠ 0) :
    Inv ⟨c, true, 0, 1, 0, .idle, n + c.toNat, n⟩
  | queued (c : BitVec 32) (n : Nat) (hc : c ≠ 0) :
    Inv ⟨c, true, 0, 0, 1, .idle, n + c.toNat, n⟩
  | got (c : BitVec 32) (n : Nat) (hc : c ≠ 0) : Inv ⟨c, true, 0, 0, 0, .got, n + c.toNat, n⟩
  | handler (c : BitVec 32) (n : Nat) (hc : c ≠ 0) :
    Inv ⟨c, false, 0, 0, 0, .handler, n + c.toNat, n⟩
  | counting (c : BitVec 32) (n : Nat) (hc : c ≠ 0) :
    Inv ⟨c, false, 0, 0, 0, .counting, n + c.toNat, n + 1⟩

variable {s t : KAlert}

theorem step_dec {c : BitVec 32} (hone : c ≠ 1) (n : Nat) :
    step ⟨c, false, 0, 0, 0, .counting, n + c.toNat, n + 1⟩ .dec =
      some ⟨c - 1, false, 0, 0, 0, .handler, n + c.toNat, n + 1⟩ := by
  simp only [step, if_true, if_neg hone]

theorem step_dec_last (n : Nat) : step ⟨1, false, 0, 0, 0, .counting, n + 1, n + 1⟩ .dec =
    some ⟨0, false, 0, 0, 0, .idle, n + 1, n + 1⟩ := by
  simp only [step]
  rfl

theorem Inv.send (h : Inv s) (hok : Few s .send) (hstep : step s .send = some t) : Inv t := by
  have hmax := hok rfl
  cases hstep
  have hadd : ∀ (c : BitVec 32) (n : Nat), c ≠ 0xFFFFFFFF#32 →
      n + c.toNat + 1 = n + (c + 1).toNat := by
    intro c n hc
    bv_omega
  cases h with
  | idle n => exact .submitting 1 n (by decide)
  | _ =>
    rename_i c n hc
    simp only [if_neg hc, hadd c n hmax]
    constructor
    bv_omega

theorem Inv.step (h : Inv s) {a : Act} (hok : Few s a) (hstep : step s a = some t) : Inv t := by
  by_cases hsend : a = .send
  · subst hsend
    exact h.send hok hstep
  cases h with
  | idle n => cases a <;> first | exact absurd rfl hsend | cases hstep
  | submitting c n hc =>
    cases a <;> first | exact absurd rfl hsend | cases hstep
    exact .appending c n hc
  | appending c n hc =>
    cases a <;> first | exact absurd rfl hsend | cases hstep
    exact .queued c n hc
  | queued c n hc =>
    cases a <;> first | exact absurd rfl hsend | cases hstep
    exact .got c n hc
  | got c n hc =>
    cases a <;> first | exact absurd rfl hsend | cases hstep
    exact .handler c n hc
  | handler c n hc =>
    cases a <;> first | exact absurd rfl hsend | cases hstep
    exact .counting c n hc
  | counting c n hc =>
    cases a with
    | dec =>
      by_cases hone : c = 1
      · subst hone
        exact Option.some.inj ((step_dec_last n).symm.trans hstep) ▸ .idle (n + 1)
      · rw [step_dec hone, show n + c.toNat = n + 1 + (c - 1).toNat by bv_omega] at hstep
        exact Option.some.inj hstep ▸ .handler _ _ (by bv_omega)
    | send => exact absurd rfl hsend
    | _ => cases hstep

/-- Steps of the senders that submit and of the work queue thread, without another send. -/
abbrev Delivery := GuardedRun Alert.step fun _ a => a ≠ .send

theorem counting_finishes (k : Nat) {c : BitVec 32} (hc : c.toNat = k + 1) (n : Nat) :
    Delivery ⟨c, false, 0, 0, 0, .counting, n + c.toNat, n + 1⟩
      ⟨0, false, 0, 0, 0, .idle, n + c.toNat, n + c.toNat⟩ := by
  induction k generalizing c n with
  | zero =>
    obtain rfl : c = 1 := by bv_omega
    exact .single ⟨.dec, nofun, step_dec_last n⟩
  | succ k ih =>
    have hrest := ih (c := c - 1) (by bv_omega) (n + 1)
    rw [show n + 1 + (c - 1).toNat = n + c.toNat by bv_omega] at hrest
    exact .head ⟨.dec, nofun, step_dec (by bv_omega) n⟩ (.head ⟨.call, nofun, rfl⟩ hrest)

theorem Inv.finishes (h : Inv s) : Delivery s ⟨0, false, 0, 0, 0, .idle, s.sends, s.sends⟩ := by
  have hlast : ∀ (c : BitVec 32) n, c ≠ 0 → Delivery ⟨c, false, 0, 0, 0, .counting, n + c.toNat, n + 1⟩
      ⟨0, false, 0, 0, 0, .idle, n + c.toNat, n + c.toNat⟩ :=
    fun c n hc => counting_finishes (c.toNat - 1) (by bv_omega) n
  have hgot : ∀ (c : BitVec 32) n, c ≠ 0 → Delivery ⟨c, true, 0, 0, 0, .got, n + c.toNat, n⟩
      ⟨0, false, 0, 0, 0, .idle, n + c.toNat, n + c.toNat⟩ :=
    fun c n hc => .head ⟨.clear, nofun, rfl⟩ (.head ⟨.call, nofun, rfl⟩ (hlast c n hc))
  cases h with
  | idle n => exact .refl
  | submitting c n hc =>
    exact .head ⟨.submit, nofun, rfl⟩ (.head ⟨.append, nofun, rfl⟩
      (.head ⟨.get, nofun, rfl⟩ (hgot c n hc)))
  | appending c n hc =>
    exact .head ⟨.append, nofun, rfl⟩ (.head ⟨.get, nofun, rfl⟩ (hgot c n hc))
  | queued c n hc => exact .head ⟨.get, nofun, rfl⟩ (hgot c n hc)
  | got c n hc => exact hgot c n hc
  | handler c n hc => exact .head ⟨.call, nofun, rfl⟩ (hlast c n hc)
  | counting c n hc => exact hlast c n hc

structure Right (s : KAlert) : Prop where
  calls_le : s.calls ≤ s.sends
  unqueued : s.submitting ≠ 0 → s.pending = false ∧ s.queued = 0
  submitted : s.sendCount ≠ 0 → s.submitting + s.appending + s.queued = 1 ∨ s.worker ≠ .idle
  delivered : Delivery s ⟨0, false, 0, 0, 0, .idle, s.sends, s.sends⟩

/-- In every run that does not overflow the count the work item is submitted only while it is not in
the queue, and it is in hand as long as the count is positive, until there have been as many calls
as sends. -/
theorem alerts_delivered (hrun : GuardedRun Alert.step Few kAlertInit s) : Right s := by
  have hinv : Inv s := hrun.invariant (P := Inv) (fun _ _ _ hs => hs.step) (.idle 0)
  refine ⟨?_, ?_, ?_, hinv.finishes⟩
  · cases hinv <;> dsimp only <;> bv_omega
  · cases hinv <;> simp
  · cases hinv <;> simp

theorem twoSends_delivered : ∃ s, [Act.send, .send, .submit, .append, .get, .clear].foldlM Alert.step
      kAlertInit = some s ∧ Right s :=
  ⟨_, rfl, alerts_delivered (.of_foldlM Alert.step Few
    [.send, .send, .submit, .append, .get, .clear] rfl)⟩

/-- While the item is queued, 2^32 sends bring the count back to zero, and the next one submits it
again. -/
theorem submitted_twice : ∃ s, GuardedRun Alert.step (fun _ _ => True) kAlertInit s ∧
    s.queued = 1 ∧ s.submitting = 1 := by
  have hsends : ∀ n : Nat, n < 2 ^ 32 → GuardedRun Alert.step (fun _ _ => True) kAlertInit
      ⟨BitVec.ofNat 32 (n + 1), true, 0, 0, 1, .idle, n + 1, 0⟩ := by
    intro n hn
    induction n with
    | zero => exact .of_foldlM Alert.step (fun _ _ => True) [.send, .submit, .append] rfl
    | succ n ih =>
      have hpos : BitVec.ofNat 32 (n + 1) ≠ 0 := by bv_omega
      refine (ih (by omega)).tail ⟨.send, trivial, ?_⟩
      rw [BitVec.ofNat_add (n + 1) 1]
      simp only [Alert.step, if_neg hpos]
      rfl
  exact ⟨_, (hsends (2 ^ 32 - 1) (by decide)).tail ⟨.send, trivial, rfl⟩, rfl, rfl⟩

end Zephyr.Alert
