import Zephyr.MailboxCalls
import Zephyr.Run

/-! Runs of a mailbox. Every arrival scans the whole of the opposite queue, so no compatible sender
and receiver wait together. The block of a message is its own until the receiver consumes or
discards it, which completes the sender, once. -/

namespace Zephyr.Mailbox

open Option List Function

variable {T D A B S : Type} [DecidableEq T] [DecidableEq D] {s s' : State T D A B S}
  {snd : Sender T D} {c : Send} {t t' : T} {r : Receive} {id size : Nat} {fate : Fate}
  {prio : T → Int} {msg tx rx : Msg T D A B S} {p : Nat × Nat}

section

omit [DecidableEq D]

theorem findReceiver_eq_some (h : findReceiver s tx = some (t, r)) :
    s.receiving t = some r ∧ t ∈ s.rxMsgQueue ∧ Compatible tx (s.rxMsg r.id) := by
  obtain ⟨u, hu, hr⟩ := exists_of_findSome?_eq_some h
  obtain ⟨_, hr', hif⟩ := bind_eq_some_iff.mp hr
  split_ifs at hif with hcomp
  obtain ⟨rfl, rfl⟩ := Prod.mk.inj (some.inj hif)
  exact ⟨hr', hu, hcomp⟩

theorem findReceiver_eq_none (h : findReceiver s tx = none) (ht : t ∈ s.rxMsgQueue)
    (hr : s.receiving t = some r) : ¬ Compatible tx (s.rxMsg r.id) := by
  have hnone := findSome?_eq_none_iff.mp h t ht
  intro hcomp
  simp [hr, hcomp] at hnone

theorem findSender_eq_some (h : findSender s rx = some (snd, c)) :
    s.sending snd = some c ∧ snd ∈ s.txMsgQueue ∧ Compatible (s.txMsg c.id) rx := by
  obtain ⟨u, hu, hr⟩ := exists_of_findSome?_eq_some h
  obtain ⟨_, hc', hif⟩ := bind_eq_some_iff.mp hr
  split_ifs at hif with hcomp
  obtain ⟨rfl, rfl⟩ := Prod.mk.inj (some.inj hif)
  exact ⟨hc', hu, hcomp⟩

theorem findSender_eq_none (h : findSender s rx = none) (hs : snd ∈ s.txMsgQueue)
    (hc : s.sending snd = some c) : ¬ Compatible (s.txMsg c.id) rx := by
  have hnone := findSome?_eq_none_iff.mp h snd hs
  intro hcomp
  simp [hc, hcomp] at hnone

end

theorem mboxMessagePut_eq (timeout : Wait)
    (htx : tx = { msg with rxSourceThread := some t, syncingThread := some snd })
    (hc : c = ⟨s.sends, timeout ≠ .forever, none⟩) :
    mboxMessagePut prio s t snd msg timeout = match findReceiver (s.newSend tx) tx with
      | some (u, r) =>
        { (s.newSend tx).pair snd c u r with rxMsgQueue := (s.newSend tx).rxMsgQueue.erase u }
      | none => if timeout = .noWait then (s.newSend tx).ret t (-eNoMsg)
        else (s.newSend tx).pendTx (senderPrio prio (s.newSend tx)) snd c := by
  subst htx hc
  rfl

theorem kMboxGet_eq (timeout : Wait) (buffer : Bool)
    (hrx : rx = { msg with txTargetThread := some t })
    (hr : r = ⟨s.receives, timeout ≠ .forever, buffer, false⟩) :
    kMboxGet prio s t msg buffer timeout = match findSender (s.newReceive rx) rx with
      | some (snd, c) =>
        { (s.newReceive rx).pair snd c t r with
          txMsgQueue := (s.newReceive rx).txMsgQueue.erase snd }
      | none => if timeout = .noWait then (s.newReceive rx).ret t (-eNoMsg)
        else (s.newReceive rx).pendRx prio t r := by
  subst hrx hr
  rfl

theorem Inv.mboxMessagePut (h : Inv s) (hs : s.sending snd = none)
    (hd : ∀ d ∈ s.asyncMsgFree, snd ≠ .dummy d) (timeout : Wait) :
    Inv (mboxMessagePut prio s t snd msg timeout) := by
  obtain ⟨tx, htx⟩ : ∃ tx, tx = { msg with rxSourceThread := some t, syncingThread := some snd } :=
    ⟨_, rfl⟩
  obtain ⟨c, hc⟩ : ∃ c : Send, c = ⟨s.sends, timeout ≠ .forever, none⟩ := ⟨_, rfl⟩
  obtain ⟨hid, hwait⟩ : c.id = s.sends ∧ c.partner = none := by simp [hc]
  have h1 : Inv (s.newSend tx) := h.newSend
  have htx' : (s.newSend tx).txMsg c.id = tx := by simp [State.newSend, hid]
  rw [mboxMessagePut_eq timeout htx hc]
  generalize senderPrio prio (s.newSend tx) = prio'
  have hcalls : Calls ((s.newSend tx).pendTx prio' snd c) := h.calls.pendTx hs hd hwait hid
  have hbooks : Books ((s.newSend tx).pendTx prio' snd c) := by
    refine h1.books.pendTx hs (fun hm => ?_) (by simp [State.newSend, hid, htx])
    exact absurd (h.calls.tx.matchedLt _ hm) (by omega)
  have hsend : ((s.newSend tx).pendTx prio' snd c).sending snd = some c := update_self ..
  -- whoever else waits did so before
  have hother : ∀ snd' c', snd' ≠ snd →
      ((s.newSend tx).pendTx prio' snd c).sending snd' = some c' → s.sending snd' = some c' :=
    fun snd' c' hne hc' => by simpa [State.pendTx, State.newSend, hne] using hc'
  split
  next u r hf =>
    obtain ⟨hu, hm, hcomp⟩ := findReceiver_eq_some hf
    obtain ⟨r', hr', hpaired⟩ := (h.calls.rx.mem u).mp hm
    obtain rfl : r' = r := some.inj (hr'.symm.trans hu)
    rw [pair_eq_unpend_tx (s := s.newSend tx) (h.calls.tx.not_mem hs) prio']
    refine ⟨hcalls.unpend hsend hwait hu hpaired, ?_, ?_⟩
    · exact hbooks.unpend hcalls hsend hwait hu hpaired (htx'.symm ▸ hcomp)
    · exact quiet_unpend hcalls hsend hu fun snd' c' t' r' hne _ hc' =>
        h1.quiet snd' c' t' r' (hother snd' c' hne hc')
  next hf =>
    split_ifs
    · exact h1.ret t _
    · refine ⟨hcalls, hbooks, fun snd' c' t' r' hc' hp ht hr => ?_⟩
      rcases eq_or_ne snd' snd with rfl | hne
      · obtain rfl : c = c' := some.inj (hsend.symm.trans hc')
        have hmem := (h.calls.rx.mem t').mpr ⟨r', ht, hr⟩
        exact fun hcomp => findReceiver_eq_none hf hmem ht (htx' ▸ hcomp)
      · exact h1.quiet snd' c' t' r' (hother snd' c' hne hc') hp ht hr

theorem Inv.kMboxGet (h : Inv s) (ht : s.receiving t = none) (buffer : Bool) (timeout : Wait) :
    Inv (kMboxGet prio s t msg buffer timeout) := by
  obtain ⟨rx, hrx⟩ : ∃ rx, rx = { msg with txTargetThread := some t } := ⟨_, rfl⟩
  obtain ⟨r, hr⟩ : ∃ r : Receive, r = ⟨s.receives, timeout ≠ .forever, buffer, false⟩ := ⟨_, rfl⟩
  obtain ⟨hid, hwait⟩ : r.id = s.receives ∧ r.paired = false := by simp [hr]
  have h1 : Inv (s.newReceive rx) := h.newReceive
  have hrx' : (s.newReceive rx).rxMsg r.id = rx := by simp [State.newReceive, hid]
  rw [kMboxGet_eq timeout buffer hrx hr]
  have hcalls : Calls ((s.newReceive rx).pendRx prio t r) := h.calls.pendRx ht hwait hid
  have hbooks : Books ((s.newReceive rx).pendRx prio t r) := h1.books.pendRx hwait
  have hrecv : ((s.newReceive rx).pendRx prio t r).receiving t = some r := update_self ..
  have hother : ∀ t' r', t' ≠ t →
      ((s.newReceive rx).pendRx prio t r).receiving t' = some r' → s.receiving t' = some r' :=
    fun t' r' hne hr' => by simpa [State.pendRx, State.newReceive, hne] using hr'
  split
  next snd c hf =>
    obtain ⟨hs, hm, hcomp⟩ := findSender_eq_some hf
    obtain ⟨c', hc', hp⟩ := (h.calls.tx.mem snd).mp hm
    obtain rfl : c' = c := some.inj (hc'.symm.trans hs)
    rw [pair_eq_unpend_rx (s := s.newReceive rx) (h.calls.rx.not_mem ht) prio]
    refine ⟨hcalls.unpend hs hp hrecv hwait, ?_, ?_⟩
    · exact hbooks.unpend hcalls hs hp hrecv hwait (hrx'.symm ▸ hcomp)
    · exact quiet_unpend hcalls hs hrecv fun snd' c' t' r' _ hne hc' hp' ht' =>
        h1.quiet snd' c' t' r' hc' hp' (hother t' r' hne ht')
  next hf =>
    split_ifs
    · exact h1.ret t _
    · refine ⟨hcalls, hbooks, fun snd' c' t' r' hc' hp ht' hr' => ?_⟩
      rcases eq_or_ne t' t with rfl | hne
      · obtain rfl : r = r' := some.inj (hrecv.symm.trans ht')
        have hmem := (h.calls.tx.mem snd').mpr ⟨c', hc', hp⟩
        exact fun hcomp => findSender_eq_none hf hmem hc' (hrx' ▸ hcomp)
      · exact h1.quiet snd' c' t' r' hc' hp (hother t' r' hne ht') hr'

theorem Inv.kMboxAsyncPut {sem : Option S} (h : Inv s)
    (hput : kMboxAsyncPut prio s t msg sem = some s') : Inv s' := by
  unfold Mailbox.kMboxAsyncPut at hput
  cases hfree : s.asyncMsgFree with
  | nil => simp [hfree] at hput
  | cons d free =>
    obtain ⟨hd, hnodup⟩ := nodup_cons.mp (hfree ▸ h.calls.asyncNodup)
    have hasync : ∀ d' ∈ d :: free, s.sending (.dummy d') = none := hfree ▸ h.calls.async
    have hf : Frame s { s with
        asyncMsgFree := free, asyncPrio := update s.asyncPrio d (prio t) } :=
      ⟨rfl, ⟨⟨rfl, rfl⟩, rfl, rfl⟩, fun _ _ => ⟨⟨rfl, rfl⟩, rfl, rfl⟩, fun _ _ _ => .rfl⟩
    have hbooks := hf.books h.books h.books.unmatchedTx h.books.unmatchedRx h.books.syncing
      fun _ _ hr _ => hr
    simp only [hfree] at hput
    cases hput
    refine Inv.mboxMessagePut ⟨?_, hbooks, h.quiet⟩ (hasync d mem_cons_self) (fun d' hd' he => hd ?_) _
    · exact { h.calls with
        asyncNodup := hnodup, async := fun d' hd' => hasync d' (mem_cons_of_mem d hd') }
    · exact Sender.dummy.inj he ▸ hd'

theorem step_resume (hr : s.receiving t = some r) (hp : r.paired = true) :
    step prio s (.resume t) = some ((mboxMessageDataCheck (s.finishGet t r) r).ret t 0) := by
  simp only [step, hr, hp]
  rfl

theorem Inv.step {a : Action T A B S D} (h : Inv s) (hok : Allowed s a)
    (hstep : step prio s a = some s') : Inv s' := by
  cases a with
  | put t msg timeout =>
    cases hstep
    exact h.mboxMessagePut hok.1 (fun _ _ => nofun) timeout
  | asyncPut t msg sem => exact h.kMboxAsyncPut hstep
  | get t msg buffer timeout =>
    cases hstep
    exact h.kMboxGet hok.2 buffer timeout
  | resume t =>
    cases hr : s.receiving t with
    | none => simp [Mailbox.step, hr] at hstep
    | some r =>
      simp only [Mailbox.step, hr] at hstep
      split_ifs at hstep with hp
      cases hstep
      obtain ⟨p, hmem, hid⟩ := mem_map.mp (h.calls.rx.isMatched t r hr (by simp [hp]))
      have h1 : Inv (s.finishGet t r) := h.endReceive (h.calls.finishGet hr hp)
      refine Inv.ret ?_ t 0
      rcases dataCheck_retrieved (h1.books.paired p hmem) hid.symm with hret | ⟨heq, -⟩
      · refine h1.retrieved hmem (fun t' r' hr' he => ?_) hret
        obtain ⟨hne, hr'⟩ := receiving_of_update hr'
        exact hne (h.calls.rx.inj _ _ _ _ hr' hr (he.trans hid))
      · exact heq.symm ▸ h1
  | timeoutPut t =>
    cases hs : s.sending (.thread t) with
    | none => simp [Mailbox.step, hs] at hstep
    | some c =>
      simp only [Mailbox.step, hs] at hstep
      split_ifs at hstep with hc
      cases hstep
      exact (h.dropTx hs hc.2).ret t _
  | timeoutGet t =>
    cases hr : s.receiving t with
    | none => simp [Mailbox.step, hr] at hstep
    | some r =>
      simp only [Mailbox.step, hr] at hstep
      split_ifs at hstep
      cases hstep
      exact (h.endReceive h.calls.dropRx).ret t _
  | dataGet t id buffer stale =>
    cases hstep
    obtain ⟨p, hmem, rfl⟩ := mem_map.mp (h.calls.received id hok.2)
    refine h.retrieved hmem (fun t' r' hr' he => ?_) (dataGet_retrieved (h.books.paired p hmem) _ _)
    exact h.calls.inProgress t' r' hr' (he ▸ hok.2)
  | dataBlockGet t id pool stale err =>
    cases hstep
    obtain ⟨p, hmem, rfl⟩ := mem_map.mp (h.calls.received id hok.2)
    obtain ⟨_, code, hret, heq⟩ :=
      dataBlockGet_retrieved (t := t) (h.books.paired p hmem) pool stale err
    rw [heq]
    rcases hret with hret | ⟨rfl, -⟩
    · refine (h.retrieved hmem (fun t' r' hr' he => ?_) hret).ret t code
      exact h.calls.inProgress t' r' hr' (he ▸ hok.2)
    · exact h.ret t code

theorem nodup_initMboxModule (n : Nat) : (initMboxModule n).Nodup := by
  have hrev : initMboxModule n = (finRange n).reverse := by simp [initMboxModule]
  rw [hrev]
  exact nodup_reverse.mpr (nodup_finRange n)

omit [DecidableEq T] [DecidableEq D] in
theorem inv_init (junk : Msg T D A B S) {free : List D} (hfree : free.Nodup) :
    Inv (init junk free) := by
  refine ⟨⟨?_, ?_, ?_, ?_, hfree, fun _ _ => rfl⟩, ?_, ?_⟩
  · constructor <;> simp [init]
  · constructor <;> simp [init]
  · simp [init]
  · simp [init]
  · constructor <;> simp [init, State.completedOf, State.givenOf, State.blocksOf]
  · simp [Quiet, init]

structure Exchanged (s : State T D A B S) (p : Nat × Nat) : Prop where
  compatible : Compatible (s.sent p.1) (s.wanted p.2)
  source : (s.rxMsg p.2).rxSourceThread = (s.sent p.1).rxSourceThread
  target : (s.txMsg p.1).txTargetThread = (s.wanted p.2).txTargetThread
  info : (s.rxMsg p.2).info = (s.sent p.1).info ∧ (s.txMsg p.1).info = (s.wanted p.2).info
  data : (s.rxMsg p.2).syncingThread ≠ none →
    (s.rxMsg p.2).size = min (s.wanted p.2).size (s.sent p.1).size ∧
      (s.rxMsg p.2).txData = (s.sent p.1).data

omit [DecidableEq T] [DecidableEq D] in
theorem Books.exchanged (h : Books s) (hp : p ∈ s.pairs) : Exchanged s p := by
  rcases h.paired p hp with ⟨_, hl⟩ | hd
  · refine ⟨h.compatible p hp, ?_, ?_, ?_, fun _ => ?_⟩
    · rw [hl.rx]; rfl
    · rw [hl.tx]; rfl
    · rw [hl.rx, hl.tx]; exact ⟨rfl, rfl⟩
    · rw [hl.rx, matchRx_size]; exact ⟨rfl, rfl⟩
  · obtain ⟨n, htx⟩ := hd.tx
    obtain ⟨m, hrx⟩ := hd.rx
    refine ⟨h.compatible p hp, ?_, ?_, ?_, fun hs => absurd hd.syncing hs⟩
    · rw [hrx]; rfl
    · rw [htx]; rfl
    · rw [hrx, htx]; exact ⟨rfl, rfl⟩

theorem Books.dataGet_copied (h : Books s) (hp : p ∈ s.pairs)
    (hs : (s.rxMsg p.2).syncingThread ≠ none) (stale : List A) :
    (kMboxDataGet s p.2 true stale).copied =
      s.copied ++ ((s.sent p.1).obtained (s.wanted p.2)).map (p.2, true, ·) := by
  rcases h.paired p hp with ⟨_, hl⟩ | hd
  · obtain ⟨_, hsend⟩ := hl.sending
    rw [hl.dataGet hsend]
    simp [State.copy]
  · exact absurd hd.syncing hs

theorem resume_copied (h : Inv s) (hr : s.receiving t = some r) (hp : r.paired = true)
    (hbuf : r.buffer = true) : ∃ p ∈ s.pairs, p.2 = r.id ∧ ∀ s', step prio s (.resume t) = some s' →
        s'.copied = s.copied ++ ((s.sent p.1).obtained (s.wanted p.2)).map (p.2, true, ·) := by
  obtain ⟨p, hmem, hid, _, hl⟩ := h.books.inHand t r hr hp
  refine ⟨p, hmem, hid, fun s' hstep => ?_⟩
  cases (step_resume hr hp).symm.trans hstep
  have hsync : (s.rxMsg p.2).syncingThread ≠ none := by simp [hl.syncing]
  change (mboxMessageDataCheck (s.finishGet t r) r).copied = _
  rw [mboxMessageDataCheck, if_pos hbuf, ← hid]
  exact (h.endReceive (h.calls.finishGet hr hp)).books.dataGet_copied hmem hsync []

/-- No compatible pair is left waiting; every message goes to one receiver at most, which obtains as
many bytes of it as both sides have room for; and the descriptors are exchanged when they match. -/
theorem mailbox_matches {n : Nat} {junk : Msg T (Fin n) A B S} {s : State T (Fin n) A B S}
    (hrun : GuardedRun (step prio) Allowed (init junk (initMboxModule n)) s) :
    (∀ snd ∈ s.txMsgQueue, ∀ t ∈ s.rxMsgQueue, ∃ c r, s.sending snd = some c ∧
      s.receiving t = some r ∧ ¬ Compatible (s.txMsg c.id) (s.rxMsg r.id)) ∧
    ((s.pairs.map Prod.fst).Nodup ∧ (s.pairs.map Prod.snd).Nodup) ∧
    (∀ p ∈ s.pairs, Exchanged s p) ∧
    ((∀ id ∉ s.pairs.map Prod.fst, s.txMsg id = s.sent id) ∧
      ∀ id ∉ s.pairs.map Prod.snd, s.rxMsg id = s.wanted id) ∧
    (∀ e ∈ s.copied, e.2.1 = true →
      ∃ p ∈ s.pairs, p.2 = e.1 ∧ e.2.2 ∈ (s.sent p.1).obtained (s.wanted p.2)) ∧
    (∀ p ∈ s.pairs, (s.rxMsg p.2).syncingThread ≠ none → ∀ stale,
      (kMboxDataGet s p.2 true stale).copied =
        s.copied ++ ((s.sent p.1).obtained (s.wanted p.2)).map (p.2, true, ·)) ∧
    ∀ t r, s.receiving t = some r → r.paired = true → r.buffer = true → ∃ p ∈ s.pairs, p.2 = r.id ∧
      ∀ s', step prio s (.resume t) = some s' →
        s'.copied = s.copied ++ ((s.sent p.1).obtained (s.wanted p.2)).map (p.2, true, ·) := by
  have h : Inv s := hrun.invariant (fun _ _ _ hi => hi.step)
    (inv_init junk (nodup_initMboxModule n))
  refine ⟨fun snd hsnd t ht => ?_, ⟨h.calls.tx.matchedNodup, h.calls.rx.matchedNodup⟩,
    fun p hp => h.books.exchanged hp, ⟨h.books.unmatchedTx, h.books.unmatchedRx⟩, h.books.copied,
    fun p hp hs stale => h.books.dataGet_copied hp hs stale,
    fun t r hr hp hbuf => resume_copied h hr hp hbuf⟩
  obtain ⟨c, hc, hpart⟩ := (h.calls.tx.mem snd).mp hsnd
  obtain ⟨r, hr, hpaired⟩ := (h.calls.rx.mem t).mp ht
  exact ⟨c, r, hc, hr, h.quiet snd c t r hc hpart hr hpaired⟩

theorem mailbox_matches_two :
    ∃ s : State Bool (Fin 1) Nat Unit Unit, s.copied = [(0, true, [1, 2])] ∧
      s.txMsgQueue = [.dummy 0] ∧ s.pairs = [(0, 0)] ∧ Exchanged s (0, 0) := by
  let msg (size info : Nat) (data : Option (List Nat)) : Msg Bool (Fin 1) Nat Unit Unit :=
    ⟨size, info, data, none, none, none, none, none⟩
  have hrun : GuardedRun (step fun _ => 0) Allowed (init (msg 0 0 none) (initMboxModule 1)) _ :=
    .of_foldlM _ _ [.put true (msg 3 7 (some [1, 2, 3])) .forever,
      .get false (msg 2 9 none) true .noWait, .resume false,
      .asyncPut true (msg 0 5 none) (some ())] rfl
  exact ⟨_, rfl, rfl, rfl, (mailbox_matches hrun).2.2.1 (0, 0) (mem_singleton_self _)⟩

variable {b : B × List A}

structure Pending (s : State T D A B S) (p : Nat × Nat) (b : B × List A) (snd : Sender T D) :
    Prop where
  block : (s.rxMsg p.2).txBlock = some b
  syncing : (s.rxMsg p.2).syncingThread = some snd
  sending : ∃ c, s.sending snd = some c ∧ c.id = p.1
  blocks : s.blocksOf p.2 = []
  completed : s.completedOf p.1 = []
  given : s.givenOf p.1 = []

structure Settled (s : State T D A B S) (p : Nat × Nat) (b : B × List A) (snd : Sender T D) :
    Prop where
  blocks : ∃ fate, s.blocksOf p.2 = [(p.2, fate, b.1)]
  completed : s.completedOf p.1 = [(p.1, snd)]
  given : s.givenOf p.1 = (semsOf (s.sent p.1)).map (p.1, ·)

def Consumes (s : State T D A B S) (p : Nat × Nat) : Action T A B S D → Prop
  | .resume t => ∃ r, s.receiving t = some r ∧ r.id = p.2 ∧
      (r.buffer = true ∨ (s.rxMsg p.2).size = 0)
  | .dataGet _ id _ _ | .dataBlockGet _ id _ _ _ => id = p.2
  | _ => False

section

omit [DecidableEq T] [DecidableEq D]

theorem matchRx_txBlock {tx rx : Msg T D A B S} (hd : tx.txData = none) :
    (matchRx tx rx).txBlock = tx.txBlock := by
  simp [matchRx, hd]

theorem Live.pending (h : Live s snd p) (hd : (s.sent p.1).txData = none)
    (hb : (s.sent p.1).txBlock = some b) : Pending s p b snd := by
  obtain ⟨_, hs⟩ := h.sending
  refine ⟨?_, h.syncing, ⟨_, hs, rfl⟩, h.blocks, h.completed, h.given⟩
  rw [h.rx, matchRx_txBlock hd, hb]

theorem Done.settled (h : Done s p) (hd : (s.sent p.1).txData = none)
    (hb : (s.sent p.1).txBlock = some b) (hs : (s.sent p.1).syncingThread = some snd) :
    Settled s p b snd := by
  obtain ⟨fate, hblocks⟩ := h.blocks
  refine ⟨⟨fate, ?_⟩, ?_, h.given⟩
  · rw [hblocks, matchRx_txBlock hd, hb]
    rfl
  · rw [h.completed, hs]
    rfl

theorem Done.ret (h : Done s p) (t : T) (code : Int) : Done (s.ret t code) p :=
  h.congr ⟨⟨rfl, rfl⟩, ⟨rfl, rfl⟩, rfl, rfl, rfl⟩ fun _ c hc he => ⟨c, hc, he⟩

end

theorem Retrieved.sent (h : Retrieved s p s') : s'.sent = s.sent := by
  cases h with
  | settled snd c size fate bytes hlive hs hb => simp [State.copy]
  | again size bytes hdone hb => rfl

theorem Inv.consumed (h : Inv s) (hp : p ∈ s.pairs) (hd : (s.sent p.1).txData = none)
    (hb : (s.sent p.1).txBlock = some b) {a : Action T A B S D} (hc : Consumes s p a)
    (hstep : Mailbox.step prio s a = some s') : Done s' p ∧ s'.sent = s.sent := by
  cases a with
  | resume t =>
    obtain ⟨r, hr, hid, hcons⟩ := hc
    have hpaired : r.paired = true := by
      by_contra hn
      exact h.calls.unmatched_ne hp hr (by simpa using hn) hid
    cases (step_resume hr hpaired).symm.trans hstep
    have h1 : Inv (s.finishGet t r) := h.endReceive (h.calls.finishGet hr hpaired)
    rcases dataCheck_retrieved (h1.books.paired p hp) hid with hret | ⟨-, hbuf, hsize⟩
    · exact ⟨(hret.done h1.calls).ret t 0, hret.sent⟩
    · exact (hcons.elim (by simp [hbuf]) hsize).elim
  | dataGet t id buffer stale =>
    obtain rfl : id = p.2 := hc
    cases hstep
    have hret := dataGet_retrieved (h.books.paired p hp) buffer stale
    exact ⟨hret.done h.calls, hret.sent⟩
  | dataBlockGet t id pool stale err =>
    obtain rfl : id = p.2 := hc
    cases hstep
    obtain ⟨_, code, hret, heq⟩ :=
      dataBlockGet_retrieved (t := t) (h.books.paired p hp) pool stale err
    rw [heq]
    rcases hret with hret | ⟨rfl, hnone⟩
    · exact ⟨(hret.done h.calls).ret t code, hret.sent⟩
    · -- no allocation is tried while the block is there
      refine ⟨?_, rfl⟩
      rcases h.books.paired p hp with ⟨_, hl⟩ | hdone
      · simp [(hl.pending hd hb).block] at hnone
      · exact hdone.ret t code
  | put | asyncPut | get | timeoutPut | timeoutGet => exact hc.elim

/-- Blocks are released or handed over for messages that were matched, and the block of each of them
is so once, with the completion of its sender, when its receiver consumes or discards it. -/
theorem mailbox_block_owned_once {n : Nat} {junk : Msg T (Fin n) A B S} {s : State T (Fin n) A B S}
    (hrun : GuardedRun (step prio) Allowed (init junk (initMboxModule n)) s) :
    ((∀ e ∈ s.blocks, e.1 ∈ s.pairs.map Prod.snd) ∧ ∀ e ∈ s.completed, e.1 ∈ s.pairs.map Prod.fst) ∧
    ∀ p ∈ s.pairs, ∀ b, (s.sent p.1).txData = none → (s.sent p.1).txBlock = some b →
      ∃ snd, (s.sent p.1).syncingThread = some snd ∧ (Pending s p b snd ∨ Settled s p b snd) ∧
        ∀ a s', Consumes s p a → step prio s a = some s' → Settled s' p b snd := by
  have h : Inv s := hrun.invariant (fun _ _ _ hi => hi.step)
    (inv_init junk (nodup_initMboxModule n))
  refine ⟨⟨fun e he => ?_, fun e he => ?_⟩, fun p hp b hd hb => ?_⟩
  · by_contra hn
    have hmem : e ∈ s.blocksOf e.1 := List.mem_filter.mpr ⟨he, by simp⟩
    simp [h.books.logRx e.1 hn] at hmem
  · by_contra hn
    have hmem : e ∈ s.completedOf e.1 := List.mem_filter.mpr ⟨he, by simp⟩
    simp [(h.books.logTx e.1 hn).1] at hmem
  · obtain ⟨snd, hs⟩ : ∃ snd, (s.sent p.1).syncingThread = some snd := by
      rcases h.books.paired p hp with ⟨snd, hl⟩ | hdone
      · exact ⟨snd, hl.sender⟩
      · exact hdone.sender
    refine ⟨snd, hs, ?_, fun a s' hc hstep => ?_⟩
    · rcases h.books.paired p hp with ⟨snd', hl⟩ | hdone
      · obtain rfl : snd' = snd := Option.some.inj (hl.sender.symm.trans hs)
        exact .inl (hl.pending hd hb)
      · exact .inr (hdone.settled hd hb hs)
    · obtain ⟨hdone, hsent⟩ := h.consumed hp hd hb hc hstep
      exact hdone.settled (hsent ▸ hd) (hsent ▸ hb) (hsent ▸ hs)

theorem mailbox_block_owned_once_async : ∃ s s' : State Bool (Fin 1) Nat Nat Unit,
    (s.blocks = [] ∧ s.pairs = [(0, 0)] ∧ s.received = [0]) ∧
      step (fun _ => 0) s (.dataBlockGet false 0 true [] none) = some s' ∧
      Settled s' (0, 0) (4, [8, 9]) (.dummy 0) ∧ s'.blocks = [(0, .handedOver, 4)] ∧
      s'.given = [(0, ())] := by
  let msg (size : Nat) (block : Option (Nat × List Nat)) : Msg Bool (Fin 1) Nat Nat Unit :=
    ⟨size, 0, none, block, none, none, none, none⟩
  have hrun : GuardedRun (step fun _ => 0) Allowed (init (msg 0 none) (initMboxModule 1)) _ :=
    .of_foldlM _ _ [.asyncPut true (msg 2 (some (4, [8, 9]))) (some ()),
      .get false (msg 5 none) false .noWait, .resume false] rfl
  obtain ⟨snd, hsnd, -, hcons⟩ := (mailbox_block_owned_once hrun).2 (0, 0) (mem_singleton_self _)
    (4, [8, 9]) rfl rfl
  obtain rfl : snd = .dummy 0 := (Option.some.inj hsnd).symm
  exact ⟨_, _, ⟨rfl, rfl, rfl⟩, rfl, hcons (.dataBlockGet ..) _ rfl rfl, rfl, rfl⟩

end Zephyr.Mailbox
