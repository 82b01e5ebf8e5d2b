import Zephyr.Mailbox
import Zephyr.Waiters

/-! Who waits at a mailbox and who is paired with whom, through the small steps that its operations
are made of. A call that was not matched has the descriptor it was passed, and every pair is live
or done: the first retrieval of the data disposes of the message. -/

namespace Zephyr.Mailbox

open Function

section

variable {T D A B S : Type} [DecidableEq T] [DecidableEq D] {s s' : State T D A B S}
  {snd : Sender T D} {c : Send} {p : Nat × Nat} {id size : Nat} {fate : Fate}

def State.blocksOf (s : State T D A B S) (id : Nat) : List (Nat × Fate × B) :=
  s.blocks.filter (·.1 = id)

def State.completedOf (s : State T D A B S) (id : Nat) : List (Nat × Sender T D) :=
  s.completed.filter (·.1 = id)

def State.givenOf (s : State T D A B S) (id : Nat) : List (Nat × S) := s.given.filter (·.1 = id)

structure Live (s : State T D A B S) (snd : Sender T D) (p : Nat × Nat) : Prop where
  sending : ∃ timed, s.sending snd = some ⟨p.1, timed, some p.2⟩
  sender : (s.sent p.1).syncingThread = some snd
  tx : s.txMsg p.1 = matchTx (s.sent p.1) (s.wanted p.2)
  rx : s.rxMsg p.2 = matchRx (s.sent p.1) (s.wanted p.2)
  blocks : s.blocksOf p.2 = []
  completed : s.completedOf p.1 = []
  given : s.givenOf p.1 = []

def semsOf (msg : Msg T D A B S) : List S :=
  match msg.syncingThread with
  | some (.dummy _) => msg.asyncSem.toList
  | _ => []

structure Done (s : State T D A B S) (p : Nat × Nat) : Prop where
  idle : ∀ snd c, s.sending snd = some c → c.id ≠ p.1
  sender : ∃ snd, (s.sent p.1).syncingThread = some snd
  tx : ∃ size, s.txMsg p.1 = { matchTx (s.sent p.1) (s.wanted p.2) with size }
  rx : ∃ size, s.rxMsg p.2 = { matchRx (s.sent p.1) (s.wanted p.2) with
    size, txBlock := none, syncingThread := none }
  blocks : ∃ fate, s.blocksOf p.2 =
    (matchRx (s.sent p.1) (s.wanted p.2)).txBlock.toList.map fun b => (p.2, fate, b.1)
  completed : s.completedOf p.1 = (s.sent p.1).syncingThread.toList.map (p.1, ·)
  given : s.givenOf p.1 = (semsOf (s.sent p.1)).map (p.1, ·)

def SameBooks (s s' : State T D A B S) (p : Nat × Nat) : Prop :=
  (s'.sent p.1 = s.sent p.1 ∧ s'.wanted p.2 = s.wanted p.2) ∧
    (s'.txMsg p.1 = s.txMsg p.1 ∧ s'.rxMsg p.2 = s.rxMsg p.2) ∧
    s'.blocksOf p.2 = s.blocksOf p.2 ∧ s'.completedOf p.1 = s.completedOf p.1 ∧
    s'.givenOf p.1 = s.givenOf p.1

section

omit [DecidableEq T] [DecidableEq D]

theorem Live.congr (h : Live s snd p) (hb : SameBooks s s' p)
    (hs : ∀ c, s.sending snd = some c → c.id = p.1 → s'.sending snd = some c) : Live s' snd p := by
  obtain ⟨⟨h1, h2⟩, ⟨h3, h4⟩, h5, h6, h7⟩ := hb
  obtain ⟨timed, hsend⟩ := h.sending
  refine ⟨⟨timed, hs _ hsend rfl⟩, ?_, ?_, ?_, ?_, ?_, ?_⟩
  · rw [h1]; exact h.sender
  · rw [h1, h2, h3]; exact h.tx
  · rw [h1, h2, h4]; exact h.rx
  · rw [h5]; exact h.blocks
  · rw [h6]; exact h.completed
  · rw [h7]; exact h.given

theorem Done.congr (h : Done s p) (hb : SameBooks s s' p)
    (hs : ∀ snd c, s'.sending snd = some c → c.id = p.1 →
      ∃ c', s.sending snd = some c' ∧ c'.id = p.1) : Done s' p := by
  obtain ⟨⟨h1, h2⟩, ⟨h3, h4⟩, h5, h6, h7⟩ := hb
  refine ⟨fun snd c hc he => ?_, ?_, ?_, ?_, ?_, ?_, ?_⟩
  · obtain ⟨c', hc', he'⟩ := hs snd c hc he
    exact h.idle snd c' hc' he'
  · rw [h1]; exact h.sender
  · rw [h1, h2, h3]; exact h.tx
  · rw [h1, h2, h4]; exact h.rx
  · rw [h1, h5]; exact h.blocks
  · rw [h1, h6]; exact h.completed
  · rw [h1, h7]; exact h.given

end

def settle (s : State T D A B S) (snd : Sender T D) (c : Send) (id size : Nat) (fate : Fate) :
    State T D A B S :=
  complete { s with
    blocks := s.blocks ++ (s.rxMsg id).txBlock.toList.map fun b => (id, fate, b.1)
    rxMsg := update s.rxMsg id
      { s.rxMsg id with size, txBlock := none, syncingThread := none }
    txMsg := update s.txMsg c.id { s.txMsg c.id with size }
    sending := update s.sending snd none } c (s.txMsg c.id).asyncSem snd

theorem dispose_eq_settle (snd : Sender T D) (c : Send)
    (hs : (s.rxMsg id).syncingThread = some snd) (hc : s.sending snd = some c) :
    mboxMessageDispose s id = settle s snd c id (s.rxMsg id).size .released := by
  simp only [mboxMessageDispose, settle, hs, hc]

theorem dispose_eq_self (hs : (s.rxMsg id).syncingThread = none) : mboxMessageDispose s id = s := by
  simp [mboxMessageDispose, hs]

theorem discard_eq_settle (hs : (s.rxMsg id).syncingThread = some snd)
    (hc : s.sending snd = some c) :
    mboxMessageDispose { s with rxMsg := update s.rxMsg id { s.rxMsg id with size := 0 } }
      id = settle s snd c id 0 .released := by
  refine (dispose_eq_settle snd c ?_ ?_).trans ?_
  · simpa using hs
  · exact hc
  · simp [settle]

theorem handOver_eq_settle {b : B × List A} (hs : (s.rxMsg id).syncingThread = some snd)
    (hc : s.sending snd = some c) (hb : (s.rxMsg id).txBlock = some b) :
    mboxMessageDispose { s with
      blocks := s.blocks ++ [(id, .handedOver, b.1)]
      rxMsg := update s.rxMsg id { s.rxMsg id with txBlock := none } } id =
      settle s snd c id (s.rxMsg id).size .handedOver := by
  refine (dispose_eq_settle snd c ?_ ?_).trans ?_
  · simpa using hs
  · exact hc
  · simp [settle, hb]

section

variable (s : State T D A B S) (snd : Sender T D) (c : Send) (id size : Nat) (fate : Fate)

@[simp] theorem settle_fields : (settle s snd c id size fate).sends = s.sends ∧
    (settle s snd c id size fate).receives = s.receives ∧
    (settle s snd c id size fate).txMsgQueue = s.txMsgQueue ∧
    (settle s snd c id size fate).rxMsgQueue = s.rxMsgQueue ∧
    (settle s snd c id size fate).receiving = s.receiving ∧
    (settle s snd c id size fate).sent = s.sent ∧
    (settle s snd c id size fate).wanted = s.wanted ∧
    (settle s snd c id size fate).received = s.received ∧
    (settle s snd c id size fate).pairs = s.pairs ∧
    (settle s snd c id size fate).copied = s.copied ∧
    (settle s snd c id size fate).sending = update s.sending snd none ∧
    (settle s snd c id size fate).rxMsg = update s.rxMsg id
      { s.rxMsg id with size, txBlock := none, syncingThread := none } ∧
    (settle s snd c id size fate).txMsg = update s.txMsg c.id { s.txMsg c.id with size } := by
  cases snd <;> simp [settle, complete, State.ret]

theorem blocksOf_settle (x : Nat) : (settle s snd c id size fate).blocksOf x = s.blocksOf x ++
    if x = id then (s.rxMsg id).txBlock.toList.map fun b => (id, fate, b.1) else [] := by
  have hb : (settle s snd c id size fate).blocks =
      s.blocks ++ (s.rxMsg id).txBlock.toList.map fun b => (id, fate, b.1) := by
    cases snd <;> rfl
  rw [State.blocksOf, hb, State.blocksOf]
  split_ifs with hx
  · subst hx
    cases (s.rxMsg x).txBlock <;> simp
  · cases (s.rxMsg id).txBlock <;> simp [Ne.symm hx]

theorem completedOf_settle (x : Nat) : (settle s snd c id size fate).completedOf x =
    s.completedOf x ++ if x = c.id then [(c.id, snd)] else [] := by
  have hb : (settle s snd c id size fate).completed = s.completed ++ [(c.id, snd)] := by
    cases snd <;> rfl
  rw [State.completedOf, hb, State.completedOf]
  split_ifs with hx
  · simp [hx]
  · simp [Ne.symm hx]

theorem givenOf_settle (x : Nat) : (settle s snd c id size fate).givenOf x = s.givenOf x ++
    if x = c.id then (semsOf { s.txMsg c.id with syncingThread := some snd }).map (c.id, ·)
    else [] := by
  have hb : (settle s snd c id size fate).given =
      s.given ++ (semsOf { s.txMsg c.id with syncingThread := some snd }).map (c.id, ·) := by
    cases snd
    · exact (List.append_nil _).symm
    · rfl
  rw [State.givenOf, hb, State.givenOf]
  split_ifs with hx
  · simp [hx]
  · simp [Ne.symm hx]

end

theorem Live.done_settle (h : Live s snd p) (hc : s.sending snd = some c)
    (hinj : ∀ snd' c', s.sending snd' = some c' → c'.id = p.1 → snd' = snd) (size : Nat)
    (fate : Fate) : Done (settle s snd c p.2 size fate) p := by
  obtain ⟨timed, hsend⟩ := h.sending
  obtain rfl : c = ⟨p.1, timed, some p.2⟩ := Option.some.inj (hc.symm.trans hsend)
  constructor
  · intro snd' c' hc' he
    rcases eq_or_ne snd' snd with rfl | hne
    · simp at hc'
    · exact hne (hinj snd' c' (by simpa [hne] using hc') he)
  · exact ⟨snd, by simp [h.sender]⟩
  · exact ⟨size, by simp [h.tx]⟩
  · exact ⟨size, by simp [h.rx]⟩
  · exact ⟨fate, by simp [blocksOf_settle, h.blocks, h.rx]⟩
  · simp [completedOf_settle, h.completed, h.sender]
  · simp [givenOf_settle, h.given, h.tx, semsOf, matchTx, h.sender]

end

variable {T D A B S : Type} [DecidableEq T] {s s' : State T D A B S} {snd : Sender T D} {c : Send}
  {t t' : T} {r : Receive} {id size : Nat} {fate : Fate} {prio : T → Int} {msg : Msg T D A B S}

theorem receiving_of_update (h : update s.receiving t none t' = some r) :
    t' ≠ t ∧ s.receiving t' = some r := by
  rcases eq_some_of_update h with ⟨-, heq⟩ | h
  · simp at heq
  · exact h

variable [DecidableEq D]

structure Calls (s : State T D A B S) : Prop where
  tx : Waiters s.sends s.txMsgQueue s.sending Send.id (·.partner = none) (s.pairs.map Prod.fst)
  rx : Waiters s.receives s.rxMsgQueue s.receiving Receive.id (·.paired = false)
    (s.pairs.map Prod.snd)
  received : ∀ id ∈ s.received, id ∈ s.pairs.map Prod.snd
  inProgress : ∀ t r, s.receiving t = some r → r.id ∉ s.received
  asyncNodup : s.asyncMsgFree.Nodup
  async : ∀ d ∈ s.asyncMsgFree, s.sending (.dummy d) = none

section

variable (s : State T D A B S)

def State.newSend (tx : Msg T D A B S) : State T D A B S :=
  { s with
    sends := s.sends + 1
    txMsg := update s.txMsg s.sends tx
    sent := update s.sent s.sends tx }

def State.newReceive (rx : Msg T D A B S) : State T D A B S :=
  { s with
    receives := s.receives + 1
    rxMsg := update s.rxMsg s.receives rx
    wanted := update s.wanted s.receives rx }

def State.pendTx (prio : Sender T D → Int) (snd : Sender T D) (c : Send) : State T D A B S :=
  { s with
    sending := update s.sending snd (some c)
    txMsgQueue := pendThread prio snd s.txMsgQueue }

def State.pendRx (prio : T → Int) (t : T) (r : Receive) : State T D A B S :=
  { s with
    receiving := update s.receiving t (some r)
    rxMsgQueue := pendThread prio t s.rxMsgQueue }

def State.unpend (snd : Sender T D) (c : Send) (t : T) (r : Receive) : State T D A B S :=
  { s.pair snd c t r with
    txMsgQueue := s.txMsgQueue.erase snd
    rxMsgQueue := s.rxMsgQueue.erase t }

def State.dropTx (snd : Sender T D) : State T D A B S :=
  { s with
    sending := update s.sending snd none
    txMsgQueue := s.txMsgQueue.erase snd }

def State.dropRx (t : T) : State T D A B S :=
  { s with
    receiving := update s.receiving t none
    rxMsgQueue := s.rxMsgQueue.erase t }

def State.finishGet (t : T) (r : Receive) : State T D A B S :=
  { s with
    receiving := update s.receiving t none
    received := s.received ++ [r.id] }

end

theorem pair_eq_unpend_tx (hq : snd ∉ s.txMsgQueue) (prio : Sender T D → Int) :
    { s.pair snd c t r with rxMsgQueue := s.rxMsgQueue.erase t } =
      (s.pendTx prio snd c).unpend snd c t r := by
  simp [State.pair, State.pendTx, State.unpend, erase_pendThread hq]

theorem pair_eq_unpend_rx (hq : t ∉ s.rxMsgQueue) (prio : T → Int) :
    { s.pair snd c t r with txMsgQueue := s.txMsgQueue.erase snd } =
      (s.pendRx prio t r).unpend snd c t r := by
  simp [State.pair, State.pendRx, State.unpend, erase_pendThread hq]

section

variable (h : Calls s)
include h

section

omit [DecidableEq T] [DecidableEq D]

theorem Calls.newSend : Calls (s.newSend msg) :=
  { h with tx := h.tx.newCall }

theorem Calls.newReceive : Calls (s.newReceive msg) :=
  { h with rx := h.rx.newCall }

end

theorem Calls.pendTx {prio : Sender T D → Int} (hs : s.sending snd = none)
    (hd : ∀ d ∈ s.asyncMsgFree, snd ≠ .dummy d) (hc : c.partner = none) (hid : c.id = s.sends) :
    Calls ((s.newSend msg).pendTx prio snd c) := by
  refine { h with tx := h.tx.pend hs hc hid, async := fun d hf => ?_ }
  exact (update_of_ne (hd d hf).symm _ _).trans (h.async d hf)

omit [DecidableEq D] in
theorem Calls.pendRx (ht : s.receiving t = none) (hr : r.paired = false)
    (hid : r.id = s.receives) : Calls ((s.newReceive msg).pendRx prio t r) := by
  refine { h with rx := h.rx.pend ht hr hid, inProgress := fun t' r' hr' hm => ?_ }
  rcases eq_some_of_update hr' with ⟨rfl, heq⟩ | ⟨-, hr'⟩
  · obtain rfl : r = r' := Option.some.inj heq
    exact absurd (h.rx.matchedLt _ (h.received _ hm)) (by omega)
  · exact h.inProgress t' r' hr' hm

theorem Calls.unpend (hs : s.sending snd = some c) (hc : c.partner = none)
    (ht : s.receiving t = some r) (hr : r.paired = false) : Calls (s.unpend snd c t r) := by
  have htx := h.tx.pairOff hs hc { c with partner := some r.id } (by simp) rfl
  have hrx := h.rx.pairOff ht hr { r with paired := true } (by simp) rfl
  refine ⟨?_, ?_, fun id hid => ?_, fun t' r' hr' => ?_, h.asyncNodup, fun d hd => ?_⟩
  · simpa [State.unpend, State.pair] using htx
  · simpa [State.unpend, State.pair] using hrx
  · simp only [State.unpend, State.pair, List.map_append, List.mem_append]
    exact .inl (h.received id hid)
  · rcases eq_some_of_update hr' with ⟨rfl, heq⟩ | ⟨-, hr'⟩
    · exact Option.some.inj heq ▸ h.inProgress t' r ht
    · exact h.inProgress t' r' hr'
  · have hne : .dummy d ≠ snd := by
      rintro rfl
      simp [h.async d hd] at hs
    exact (update_of_ne hne _ _).trans (h.async d hd)

theorem Calls.dropTx : Calls (s.dropTx snd) := by
  refine { h with tx := h.tx.leave, async := fun d hd => ?_ }
  simp [State.dropTx, update_apply, h.async d hd]

omit [DecidableEq D] in
theorem Calls.dropRx : Calls (s.dropRx t) :=
  { h with
    rx := h.rx.leave
    inProgress := fun t' r' hr' => h.inProgress t' r' (receiving_of_update hr').2 }

omit [DecidableEq D] in
theorem Calls.finishGet (ht : s.receiving t = some r) (hr : r.paired = true) :
    Calls (s.finishGet t r) := by
  refine { h with
    rx := h.rx.leave_of_matched ht (by simp [hr])
    received := fun id hid => ?_, inProgress := fun t' r' hr' hm => ?_ }
  · rcases List.mem_append.mp hid with hid | hid
    · exact h.received id hid
    · rw [List.mem_singleton.mp hid]
      exact h.rx.isMatched t r ht (by simp [hr])
  · obtain ⟨hne, hr'⟩ := receiving_of_update hr'
    rcases List.mem_append.mp hm with hm | hm
    · exact h.inProgress t' r' hr' hm
    · exact hne (h.rx.inj _ _ _ _ hr' ht (List.mem_singleton.mp hm))

theorem Calls.settle (hs : s.sending snd = some c) (hc : c.partner ≠ none) :
    Calls (settle s snd c id size fate) := by
  have htx := h.tx.leave_of_matched hs hc
  refine ⟨by simpa using htx, by simpa using h.rx, by simpa using h.received,
    by simpa using h.inProgress, ?_, ?_⟩
  · cases snd with
    | thread t => exact h.asyncNodup
    | dummy d =>
      refine List.nodup_cons.mpr ⟨fun hd => ?_, h.asyncNodup⟩
      simp [h.async d hd] at hs
  · intro d hd
    have hd' : d ∈ s.asyncMsgFree ∨ snd = .dummy d := by
      cases snd with
      | thread t => exact .inl hd
      | dummy d' => exact (List.mem_cons.mp hd).symm.imp_right fun he => by rw [he]
    rcases hd' with hd' | rfl
    · simp [update_apply, h.async d hd']
    · simp

end

open List

variable {tx rx : Msg T D A B S} {p : Nat × Nat}

def Msg.data (msg : Msg T D A B S) : Option (List A) :=
  match msg.txData with
  | some data => some data
  | none => msg.txBlock.map Prod.snd

/-- What a receiver with descriptor `rx` is to obtain of a message. -/
def Msg.obtained (tx rx : Msg T D A B S) : List (List A) :=
  if 0 < min rx.size tx.size then tx.data.toList.map (·.take (min rx.size tx.size)) else []

def Quiet (s : State T D A B S) : Prop :=
  ∀ snd c t r, s.sending snd = some c → c.partner = none → s.receiving t = some r →
    r.paired = false → ¬ Compatible (s.txMsg c.id) (s.rxMsg r.id)

structure Books (s : State T D A B S) : Prop where
  unmatchedTx : ∀ id ∉ s.pairs.map Prod.fst, s.txMsg id = s.sent id
  unmatchedRx : ∀ id ∉ s.pairs.map Prod.snd, s.rxMsg id = s.wanted id
  syncing : ∀ snd c, s.sending snd = some c → (s.sent c.id).syncingThread = some snd
  compatible : ∀ p ∈ s.pairs, Compatible (s.sent p.1) (s.wanted p.2)
  paired : ∀ p ∈ s.pairs, (∃ snd, Live s snd p) ∨ Done s p
  inHand : ∀ t r, s.receiving t = some r → r.paired = true →
    ∃ p ∈ s.pairs, p.2 = r.id ∧ ∃ snd, Live s snd p
  logTx : ∀ id ∉ s.pairs.map Prod.fst, s.completedOf id = [] ∧ s.givenOf id = []
  logRx : ∀ id ∉ s.pairs.map Prod.snd, s.blocksOf id = []
  copied : ∀ e ∈ s.copied, e.2.1 = true →
    ∃ p ∈ s.pairs, p.2 = e.1 ∧ e.2.2 ∈ (s.sent p.1).obtained (s.wanted p.2)

structure Inv (s : State T D A B S) : Prop where
  calls : Calls s
  books : Books s
  quiet : Quiet s

section

omit [DecidableEq T] [DecidableEq D]

theorem Quiet.mono (h : Quiet s) (htx : ∀ snd c, s'.sending snd = some c → c.partner = none →
      s.sending snd = some c ∧ s'.txMsg c.id = s.txMsg c.id)
    (hrx : ∀ t r, s'.receiving t = some r → r.paired = false →
      s.receiving t = some r ∧ s'.rxMsg r.id = s.rxMsg r.id) : Quiet s' := by
  intro snd c t r hs hc ht hr
  obtain ⟨hs', htx'⟩ := htx snd c hs hc
  obtain ⟨ht', hrx'⟩ := hrx t r ht hr
  rw [htx', hrx']
  exact h snd c t r hs' hc ht' hr

structure Frame (s s' : State T D A B S) : Prop where
  pairs : s'.pairs = s.pairs
  logs : (s'.blocks = s.blocks ∧ s'.completed = s.completed) ∧ s'.given = s.given ∧
    s'.copied = s.copied
  msgs : ∀ p ∈ s.pairs, (s'.sent p.1 = s.sent p.1 ∧ s'.wanted p.2 = s.wanted p.2) ∧
    s'.txMsg p.1 = s.txMsg p.1 ∧ s'.rxMsg p.2 = s.rxMsg p.2
  sending : ∀ snd c, c.id ∈ s.pairs.map Prod.fst →
    (s'.sending snd = some c ↔ s.sending snd = some c)

theorem Frame.sameBooks (h : Frame s s') (hp : p ∈ s.pairs) : SameBooks s s' p := by
  obtain ⟨hm, hm'⟩ := h.msgs p hp
  obtain ⟨⟨hb, hc⟩, hg, -⟩ := h.logs
  refine ⟨hm, hm', ?_, ?_, ?_⟩
  · rw [State.blocksOf, hb, State.blocksOf]
  · rw [State.completedOf, hc, State.completedOf]
  · rw [State.givenOf, hg, State.givenOf]

theorem paired_congr (h : (∃ snd, Live s snd p) ∨ Done s p) (hb : SameBooks s s' p)
    (hs : ∀ snd c, c.id = p.1 → (s'.sending snd = some c ↔ s.sending snd = some c)) :
    (∃ snd, Live s' snd p) ∨ Done s' p := by
  rcases h with ⟨snd, h⟩ | h
  · exact .inl ⟨snd, h.congr hb fun c hc hid => (hs snd c hid).mpr hc⟩
  · exact .inr (h.congr hb fun snd c hc hid => ⟨c, (hs snd c hid).mp hc, hid⟩)

theorem Frame.live (h : Frame s s') (hp : p ∈ s.pairs) (hl : Live s snd p) : Live s' snd p :=
  hl.congr (h.sameBooks hp) fun c hc hid => (h.sending snd c (hid ▸ mem_map_of_mem hp)).mpr hc

theorem Frame.books (h : Frame s s') (hb : Books s)
    (htx : ∀ id ∉ s.pairs.map Prod.fst, s'.txMsg id = s'.sent id)
    (hrx : ∀ id ∉ s.pairs.map Prod.snd, s'.rxMsg id = s'.wanted id)
    (hsync : ∀ snd c, s'.sending snd = some c → (s'.sent c.id).syncingThread = some snd)
    (hrecv : ∀ t r, s'.receiving t = some r → r.paired = true → s.receiving t = some r) :
    Books s' := by
  obtain ⟨⟨hbl, hco⟩, hg, hcp⟩ := h.logs
  refine ⟨h.pairs ▸ htx, h.pairs ▸ hrx, hsync, ?_, ?_, ?_, ?_, ?_, ?_⟩ <;> rw [h.pairs]
  · intro p hp
    rw [(h.msgs p hp).1.1, (h.msgs p hp).1.2]
    exact hb.compatible p hp
  · intro p hp
    exact paired_congr (hb.paired p hp) (h.sameBooks hp) fun snd c hid =>
      h.sending snd c (hid ▸ mem_map_of_mem hp)
  · intro t r hr hpr
    obtain ⟨p, hp, hid, snd, hl⟩ := hb.inHand t r (hrecv t r hr hpr) hpr
    exact ⟨p, hp, hid, snd, h.live hp hl⟩
  · intro id hid
    rw [State.completedOf, State.givenOf, hco, hg]
    exact hb.logTx id hid
  · intro id hid
    rw [State.blocksOf, hbl]
    exact hb.logRx id hid
  · intro e he hlive
    rw [hcp] at he
    obtain ⟨p, hp, hid, hob⟩ := hb.copied e he hlive
    refine ⟨p, hp, hid, ?_⟩
    rw [(h.msgs p hp).1.1, (h.msgs p hp).1.2]
    exact hob

theorem Inv.ret (h : Inv s) (t : T) (code : Int) : Inv (s.ret t code) := by
  have hf : Frame s (s.ret t code) :=
    ⟨rfl, ⟨⟨rfl, rfl⟩, rfl, rfl⟩, fun _ _ => ⟨⟨rfl, rfl⟩, rfl, rfl⟩, fun _ _ _ => .rfl⟩
  obtain ⟨hcalls, hb, hq⟩ := h
  exact ⟨{ hcalls with }, hf.books hb hb.unmatchedTx hb.unmatchedRx hb.syncing fun _ _ hr _ => hr, hq⟩

theorem Calls.fst_lt (h : Calls s) (hp : p ∈ s.pairs) : p.1 < s.sends :=
  h.tx.matchedLt _ (mem_map_of_mem hp)

theorem Calls.snd_lt (h : Calls s) (hp : p ∈ s.pairs) : p.2 < s.receives :=
  h.rx.matchedLt _ (mem_map_of_mem hp)

theorem Inv.newSend (h : Inv s) : Inv (s.newSend tx) := by
  have hne : ∀ snd c, s.sending snd = some c → c.id ≠ s.sends := fun snd c hc =>
    Nat.ne_of_lt (h.calls.tx.lt snd c hc)
  have hf : Frame s (s.newSend tx) := by
    refine ⟨rfl, ⟨⟨rfl, rfl⟩, rfl, rfl⟩, fun p hp => ?_, fun _ _ _ => .rfl⟩
    simp [State.newSend, Nat.ne_of_lt (h.calls.fst_lt hp)]
  refine ⟨h.calls.newSend, hf.books h.books (fun id hid => ?_) h.books.unmatchedRx
    (fun snd c hc => ?_) (fun _ _ hr _ => hr), h.quiet.mono (fun snd c hc _ => ⟨hc, ?_⟩)
    fun t r hr _ => ⟨hr, rfl⟩⟩
  · rcases eq_or_ne id s.sends with rfl | hid'
    · simp [State.newSend]
    · simpa [State.newSend, hid'] using h.books.unmatchedTx id hid
  · simpa [State.newSend, hne snd c hc] using h.books.syncing snd c hc
  · simp [State.newSend, hne snd c hc]

theorem Inv.newReceive (h : Inv s) : Inv (s.newReceive rx) := by
  have hne : ∀ t r, s.receiving t = some r → r.id ≠ s.receives := fun t r hr =>
    Nat.ne_of_lt (h.calls.rx.lt t r hr)
  have hf : Frame s (s.newReceive rx) := by
    refine ⟨rfl, ⟨⟨rfl, rfl⟩, rfl, rfl⟩, fun p hp => ?_, fun _ _ _ => .rfl⟩
    simp [State.newReceive, Nat.ne_of_lt (h.calls.snd_lt hp)]
  refine ⟨h.calls.newReceive, hf.books h.books h.books.unmatchedTx (fun id hid => ?_)
    h.books.syncing (fun _ _ hr _ => hr), h.quiet.mono (fun snd c hc _ => ⟨hc, rfl⟩)
    fun t r hr _ => ⟨hr, ?_⟩⟩
  · rcases eq_or_ne id s.receives with rfl | hid'
    · simp [State.newReceive]
    · simpa [State.newReceive, hid'] using h.books.unmatchedRx id hid
  · simp [State.newReceive, hne t r hr]

end

theorem Books.pendTx (hb : Books s) {prio : Sender T D → Int} (hs : s.sending snd = none)
    (hid : c.id ∉ s.pairs.map Prod.fst) (htx : (s.sent c.id).syncingThread = some snd) :
    Books (s.pendTx prio snd c) := by
  have hf : Frame s (s.pendTx prio snd c) := by
    refine ⟨rfl, ⟨⟨rfl, rfl⟩, rfl, rfl⟩, fun _ _ => ⟨⟨rfl, rfl⟩, rfl, rfl⟩, fun snd' c' hc' => ?_⟩
    have hne : c ≠ c' := fun he => hid (he ▸ hc')
    rcases eq_or_ne snd' snd with rfl | hsnd
    · simp [State.pendTx, hs, hne]
    · simp [State.pendTx, hsnd]
  refine hf.books hb hb.unmatchedTx hb.unmatchedRx (fun snd' c' hc' => ?_) fun _ _ hr _ => hr
  rcases eq_or_ne snd' snd with rfl | hsnd
  · obtain rfl : c = c' := by simpa [State.pendTx] using hc'
    exact htx
  · exact hb.syncing snd' c' (by simpa [State.pendTx, hsnd] using hc')

omit [DecidableEq D] in
theorem Books.pendRx (hb : Books s) (hr : r.paired = false) : Books (s.pendRx prio t r) := by
  have hf : Frame s (s.pendRx prio t r) :=
    ⟨rfl, ⟨⟨rfl, rfl⟩, rfl, rfl⟩, fun _ _ => ⟨⟨rfl, rfl⟩, rfl, rfl⟩, fun _ _ _ => .rfl⟩
  refine hf.books hb hb.unmatchedTx hb.unmatchedRx hb.syncing fun t' r' hr' hp => ?_
  rcases eq_or_ne t' t with rfl | ht
  · obtain rfl : r = r' := by simpa [State.pendRx] using hr'
    simp [hr] at hp
  · simpa [State.pendRx, ht] using hr'

theorem Books.unpend (hb : Books s) (hcalls : Calls s) (hs : s.sending snd = some c)
    (hc : c.partner = none) (ht : s.receiving t = some r) (hr : r.paired = false)
    (hcomp : Compatible (s.txMsg c.id) (s.rxMsg r.id)) : Books (s.unpend snd c t r) := by
  have hfst := hcalls.tx.unmatched snd c hs hc
  have hsnd := hcalls.rx.unmatched t r ht hr
  have htx := hb.unmatchedTx c.id hfst
  have hrx := hb.unmatchedRx r.id hsnd
  have hpairs : ∀ p, p ∈ (s.unpend snd c t r).pairs ↔ p ∈ s.pairs ∨ p = (c.id, r.id) := by
    simp [State.unpend, State.pair]
  have hold : ∀ p ∈ s.pairs, p.1 ≠ c.id ∧ p.2 ≠ r.id := fun p hp =>
    ⟨fun he => hfst (he ▸ mem_map_of_mem hp), fun he => hsnd (he ▸ mem_map_of_mem hp)⟩
  have hmem : ∀ {f : Nat × Nat → Nat} {id}, id ∉ (s.unpend snd c t r).pairs.map f →
      id ∉ s.pairs.map f := by
    intro f id hid hm
    simp only [State.unpend, State.pair, map_append, mem_append] at hid
    exact hid (.inl hm)
  have hnew : (c.id, r.id) ∈ (s.unpend snd c t r).pairs := (hpairs _).mpr (.inr rfl)
  have hbooks : ∀ p ∈ s.pairs, SameBooks s (s.unpend snd c t r) p := fun p hp =>
    ⟨⟨rfl, rfl⟩, by simp [State.unpend, State.pair, hold p hp], rfl, rfl, rfl⟩
  have hsend : ∀ p ∈ s.pairs, ∀ snd' c', c'.id = p.1 →
      ((s.unpend snd c t r).sending snd' = some c' ↔ s.sending snd' = some c') := by
    intro p hp snd' c' hid
    have hne : c.id ≠ c'.id := fun he => (hold p hp).1 (hid.symm.trans he.symm)
    rcases eq_or_ne snd' snd with rfl | hsnd'
    · refine iff_of_false (fun h => hne ?_) fun h => hne ?_
      · rw [show (s.unpend snd' c t r).sending snd' = _ from update_self ..] at h
        rw [← Option.some.inj h]
      · rw [Option.some.inj (hs.symm.trans h)]
    · simp [State.unpend, State.pair, hsnd']
  have hlive : Live (s.unpend snd c t r) snd (c.id, r.id) := by
    refine ⟨⟨c.timed, by simp [State.unpend, State.pair]⟩, hb.syncing snd c hs, ?_, ?_, ?_, ?_, ?_⟩
    · simp [State.unpend, State.pair, htx, hrx]
    · simp [State.unpend, State.pair, htx, hrx]
    · exact hb.logRx r.id hsnd
    · exact (hb.logTx c.id hfst).1
    · exact (hb.logTx c.id hfst).2
  refine ⟨fun id hid => ?_, fun id hid => ?_, fun snd' c' hc' => ?_, fun p hp => ?_,
    fun p hp => ?_, fun t' r' hr' hp => ?_, fun id hid => hb.logTx id (hmem hid),
    fun id hid => hb.logRx id (hmem hid), fun e he hcopy => ?_⟩
  · have hne : id ≠ c.id := fun he => hid (he ▸ mem_map_of_mem hnew)
    simpa [State.unpend, State.pair, hne] using hb.unmatchedTx id (hmem hid)
  · have hne : id ≠ r.id := fun he => hid (he ▸ mem_map_of_mem hnew)
    simpa [State.unpend, State.pair, hne] using hb.unmatchedRx id (hmem hid)
  · rcases eq_some_of_update hc' with ⟨rfl, heq⟩ | ⟨-, hc'⟩
    · exact Option.some.inj heq ▸ hb.syncing snd' c hs
    · exact hb.syncing snd' c' hc'
  · rcases (hpairs p).mp hp with hp | rfl
    · exact hb.compatible p hp
    · exact htx ▸ hrx ▸ hcomp
  · rcases (hpairs p).mp hp with hp | rfl
    · exact paired_congr (hb.paired p hp) (hbooks p hp) (hsend p hp)
    · exact .inl ⟨snd, hlive⟩
  · rcases eq_some_of_update hr' with ⟨rfl, heq⟩ | ⟨-, hr'⟩
    · exact ⟨_, hnew, Option.some.inj heq ▸ rfl, snd, hlive⟩
    · obtain ⟨p, hp', hid, snd', hl⟩ := hb.inHand t' r' hr' hp
      refine ⟨p, (hpairs p).mpr (.inl hp'), hid, snd', hl.congr (hbooks p hp') ?_⟩
      exact fun c' hc' hid' => (hsend p hp' snd' c' hid').mpr hc'
  · obtain ⟨p, hp, hid, hob⟩ := hb.copied e he hcopy
    exact ⟨p, (hpairs p).mpr (.inl hp), hid, hob⟩

theorem quiet_unpend (hcalls : Calls s) (hs : s.sending snd = some c) (ht : s.receiving t = some r)
    (h : ∀ snd' c' t' r', snd' ≠ snd → t' ≠ t → s.sending snd' = some c' → c'.partner = none →
      s.receiving t' = some r' → r'.paired = false →
      ¬ Compatible (s.txMsg c'.id) (s.rxMsg r'.id)) : Quiet (s.unpend snd c t r) := by
  intro snd' c' t' r' hc' hp ht' hr
  have hsnd : snd' ≠ snd := by
    rintro rfl
    obtain rfl : _ = c' := by simpa [State.unpend, State.pair] using hc'
    simp at hp
  have hne : t' ≠ t := by
    rintro rfl
    obtain rfl : _ = r' := by simpa [State.unpend, State.pair] using ht'
    simp at hr
  have hc'' : s.sending snd' = some c' := by simpa [State.unpend, State.pair, hsnd] using hc'
  have ht'' : s.receiving t' = some r' := by simpa [State.unpend, State.pair, hne] using ht'
  have hid : c'.id ≠ c.id := fun he => hsnd (hcalls.tx.inj _ _ _ _ hc'' hs he)
  have hid' : r'.id ≠ r.id := fun he => hne (hcalls.rx.inj _ _ _ _ ht'' ht he)
  simpa [State.unpend, State.pair, hid, hid'] using h snd' c' t' r' hsnd hne hc'' hp ht'' hr

theorem Inv.dropTx (h : Inv s) (hs : s.sending snd = some c) (hc : c.partner = none) :
    Inv (s.dropTx snd) := by
  have hsub : ∀ snd' c', (s.dropTx snd).sending snd' = some c' → s.sending snd' = some c' := by
    intro snd' c' hc'
    rcases eq_or_ne snd' snd with rfl | hne
    · simp [State.dropTx] at hc'
    · simpa [State.dropTx, hne] using hc'
  have hf : Frame s (s.dropTx snd) := by
    refine ⟨rfl, ⟨⟨rfl, rfl⟩, rfl, rfl⟩, fun _ _ => ⟨⟨rfl, rfl⟩, rfl, rfl⟩,
      fun snd' c' hid => ⟨hsub snd' c', fun hc' => ?_⟩⟩
    have hne : snd' ≠ snd := by
      rintro rfl
      obtain rfl : c = c' := Option.some.inj (hs.symm.trans hc')
      exact h.calls.tx.unmatched _ _ hs hc hid
    simpa [State.dropTx, hne] using hc'
  exact ⟨h.calls.dropTx, hf.books h.books h.books.unmatchedTx h.books.unmatchedRx
      (fun snd' c' hc' => h.books.syncing snd' c' (hsub snd' c' hc')) (fun _ _ hr _ => hr),
    h.quiet.mono (fun snd' c' hc' _ => ⟨hsub snd' c' hc', rfl⟩) fun _ _ hr _ => ⟨hr, rfl⟩⟩

omit [DecidableEq D] in
theorem Inv.endReceive (h : Inv s) {rxMsgQueue : List T} {received : List Nat}
    (hc : Calls { s with receiving := update s.receiving t none, rxMsgQueue, received }) :
    Inv { s with receiving := update s.receiving t none, rxMsgQueue, received } := by
  have hf : Frame s { s with receiving := update s.receiving t none, rxMsgQueue, received } :=
    ⟨rfl, ⟨⟨rfl, rfl⟩, rfl, rfl⟩, fun _ _ => ⟨⟨rfl, rfl⟩, rfl, rfl⟩, fun _ _ _ => .rfl⟩
  exact ⟨hc, hf.books h.books h.books.unmatchedTx h.books.unmatchedRx h.books.syncing
      (fun t' r' hr _ => (receiving_of_update hr).2),
    h.quiet.mono (fun _ _ hc _ => ⟨hc, rfl⟩) fun t' r' hr _ => ⟨(receiving_of_update hr).2, rfl⟩⟩

def State.copy (s : State T D A B S) (bytes : List (Nat × Bool × List A)) : State T D A B S :=
  { s with copied := s.copied ++ bytes }

def State.resize (s : State T D A B S) (id size : Nat) : State T D A B S :=
  { s with rxMsg := update s.rxMsg id { s.rxMsg id with size } }

inductive Retrieved (s : State T D A B S) (p : Nat × Nat) : State T D A B S → Prop where
  | settled (snd : Sender T D) (c : Send) (size : Nat) (fate : Fate)
      (bytes : List (Nat × Bool × List A)) (hlive : Live s snd p) (hs : s.sending snd = some c)
      (hb : ∀ e ∈ bytes, e.1 = p.2 ∧ e.2.2 ∈ (s.sent p.1).obtained (s.wanted p.2)) :
      Retrieved s p (settle (s.copy bytes) snd c p.2 size fate)
  | again (size : Nat) (bytes : List (Nat × Bool × List A)) (hdone : Done s p)
      (hb : ∀ e ∈ bytes, e.2.1 = false) : Retrieved s p ((s.copy bytes).resize p.2 size)

section

omit [DecidableEq T] [DecidableEq D]

theorem Live.syncing (h : Live s snd p) : (s.rxMsg p.2).syncingThread = some snd := by
  rw [h.rx]
  exact h.sender

theorem Done.syncing (h : Done s p) : (s.rxMsg p.2).syncingThread = none := by
  obtain ⟨_, hrx⟩ := h.rx
  rw [hrx]

theorem matchRx_size (tx rx : Msg T D A B S) : (matchRx tx rx).size = min rx.size tx.size := by
  simp only [matchRx]
  split_ifs <;> omega

theorem Live.copy (h : Live s snd p) (bytes : List (Nat × Bool × List A)) :
    Live (s.copy bytes) snd p :=
  h.congr ⟨⟨rfl, rfl⟩, ⟨rfl, rfl⟩, rfl, rfl, rfl⟩ fun _ hc _ => hc

theorem Done.copy (h : Done s p) (bytes : List (Nat × Bool × List A)) : Done (s.copy bytes) p :=
  h.congr ⟨⟨rfl, rfl⟩, ⟨rfl, rfl⟩, rfl, rfl, rfl⟩ fun _ c hc he => ⟨c, hc, he⟩

theorem Done.resize (h : Done s p) (size : Nat) : Done (s.resize p.2 size) p := by
  obtain ⟨n, hrx⟩ := h.rx
  exact { h with rx := ⟨size, by simp [State.resize, hrx]⟩ }

@[simp] theorem copy_nil (s : State T D A B S) : s.copy [] = s := by simp [State.copy]

@[simp] theorem resize_self (s : State T D A B S) (id : Nat) :
    s.resize id (s.rxMsg id).size = s := by
  simp [State.resize]

end

theorem Retrieved.of_done (h : Done s p) : Retrieved s p s := by
  simpa using Retrieved.again (s.rxMsg p.2).size [] h (by simp)

theorem dispose_retrieved (h : (∃ snd, Live s snd p) ∨ Done s p) :
    Retrieved s p (mboxMessageDispose s p.2) := by
  rcases h with ⟨snd, h⟩ | h
  · obtain ⟨_, hs⟩ := h.sending
    rw [dispose_eq_settle snd _ h.syncing hs]
    simpa using Retrieved.settled snd _ (s.rxMsg p.2).size .released [] h hs (by simp)
  · rw [dispose_eq_self h.syncing]
    exact .of_done h

theorem discard_retrieved (h : (∃ snd, Live s snd p) ∨ Done s p) :
    Retrieved s p (mboxMessageDispose (s.resize p.2 0) p.2) := by
  rcases h with ⟨snd, h⟩ | h
  · obtain ⟨_, hs⟩ := h.sending
    rw [State.resize, discard_eq_settle h.syncing hs]
    simpa using Retrieved.settled snd _ 0 .released [] h hs (by simp)
  · rw [dispose_eq_self (h.resize 0).syncing]
    simpa using Retrieved.again 0 [] h (by simp)

theorem Live.dataGet (h : Live s snd p) (hs : s.sending snd = some c) (stale : List A) :
    kMboxDataGet s p.2 true stale =
      settle (s.copy (((s.sent p.1).obtained (s.wanted p.2)).map (p.2, true, ·))) snd c p.2
        (s.rxMsg p.2).size .released := by
  have hdata : (s.rxMsg p.2).txData = (s.sent p.1).data := by
    rw [h.rx]
    rfl
  have hsize : (s.rxMsg p.2).size = min (s.wanted p.2).size (s.sent p.1).size := by
    rw [h.rx, matchRx_size]
  have hbytes : (match (s.rxMsg p.2).txData with
      | some data => if 0 < (s.rxMsg p.2).size then
          [(p.2, (s.rxMsg p.2).syncingThread.isSome,
            (if (s.rxMsg p.2).syncingThread.isSome then data else stale).take (s.rxMsg p.2).size)]
        else []
      | none => []) = ((s.sent p.1).obtained (s.wanted p.2)).map (p.2, true, ·) := by
    rw [hdata, hsize, h.syncing, Msg.obtained]
    by_cases hpos : 0 < min (s.wanted p.2).size (s.sent p.1).size <;>
      cases (s.sent p.1).data <;> simp [hpos]
  rw [← hbytes]
  exact dispose_eq_settle (s := s.copy _) snd c h.syncing hs

theorem Done.dataGet (h : Done s p) (stale : List A) : ∃ bytes, (∀ e ∈ bytes, e.2.1 = false) ∧
    kMboxDataGet s p.2 true stale = s.copy bytes := by
  simp only [kMboxDataGet, h.syncing]
  refine ⟨_, fun e he => ?_, dispose_eq_self h.syncing⟩
  split at he
  · by_cases hpos : 0 < (s.rxMsg p.2).size
    · rw [if_pos hpos, mem_singleton] at he
      exact he ▸ rfl
    · simp [hpos] at he
  · simp at he

section

variable (h : (∃ snd, Live s snd p) ∨ Done s p)
include h

theorem dataGet_retrieved (buffer : Bool) (stale : List A) :
    Retrieved s p (kMboxDataGet s p.2 buffer stale) := by
  cases buffer with
  | false => exact discard_retrieved h
  | true =>
    rcases h with ⟨snd, h⟩ | h
    · obtain ⟨_, hs⟩ := h.sending
      rw [h.dataGet hs]
      refine .settled snd _ _ .released _ h hs fun e he => ?_
      obtain ⟨bytes, hb, rfl⟩ := List.mem_map.mp he
      exact ⟨rfl, hb⟩
    · obtain ⟨bytes, hb, heq⟩ := h.dataGet stale
      rw [heq, ← resize_self (s.copy bytes) p.2]
      exact .again _ bytes h hb

theorem dataBlockGet_retrieved (pool : Bool) (stale : List A) (err : Option Int) : ∃ s' code,
      (Retrieved s p s' ∨ s' = s ∧ (s.rxMsg p.2).txBlock = none) ∧
        kMboxDataBlockGet s t p.2 pool stale err = s'.ret t code := by
  cases pool with
  | false => exact ⟨_, 0, .inl (discard_retrieved h), rfl⟩
  | true =>
    cases hb : (s.rxMsg p.2).txBlock with
    | none =>
      cases err with
      | some err => exact ⟨s, err, .inr ⟨rfl, rfl⟩, by simp [kMboxDataBlockGet, hb]⟩
      | none =>
        exact ⟨_, 0, .inl (dataGet_retrieved h true stale), by simp [kMboxDataBlockGet, hb]⟩
    | some b =>
      rcases h with ⟨snd, h⟩ | h
      · obtain ⟨_, hs⟩ := h.sending
        refine ⟨_, 0, .inl (.settled snd _ (s.rxMsg p.2).size .handedOver [] h hs (by simp)), ?_⟩
        rw [copy_nil, ← handOver_eq_settle h.syncing hs hb]
        simp [kMboxDataBlockGet, hb]
      · obtain ⟨_, hrx⟩ := h.rx
        simp [hrx] at hb

theorem dataCheck_retrieved (hr : r.id = p.2) : Retrieved s p (mboxMessageDataCheck s r) ∨
      mboxMessageDataCheck s r = s ∧ r.buffer = false ∧ (s.rxMsg p.2).size ≠ 0 := by
  rw [mboxMessageDataCheck, hr]
  split_ifs with hbuf hsize
  · exact .inl (dataGet_retrieved h true [])
  · exact .inl (dispose_retrieved h)
  · exact .inr ⟨rfl, by simpa using hbuf, hsize⟩

end

theorem Retrieved.done (h : Retrieved s p s') (hcalls : Calls s) : Done s' p := by
  cases h with
  | settled snd c size fate bytes hlive hs hb =>
    refine (hlive.copy bytes).done_settle hs (fun snd' c' hc' he => ?_) size fate
    obtain ⟨_, hsend⟩ := hlive.sending
    exact hcalls.tx.inj _ _ _ _ hc' hsend he
  | again size bytes hdone hb => exact (hdone.copy bytes).resize size

section

omit [DecidableEq T] [DecidableEq D]

theorem Calls.ne_of_ne {q : Nat × Nat} (h : Calls s) (hp : p ∈ s.pairs) (hq : q ∈ s.pairs)
    (hne : q ≠ p) : q.1 ≠ p.1 ∧ q.2 ≠ p.2 :=
  ⟨fun he => hne (inj_on_of_nodup_map h.tx.matchedNodup hq hp he),
    fun he => hne (inj_on_of_nodup_map h.rx.matchedNodup hq hp he)⟩

theorem Inv.copy (h : Inv s) {bytes : List (Nat × Bool × List A)} (hb : ∀ e ∈ bytes, e.2.1 = true →
      ∃ p ∈ s.pairs, p.2 = e.1 ∧ e.2.2 ∈ (s.sent p.1).obtained (s.wanted p.2)) :
    Inv (s.copy bytes) := by
  obtain ⟨hcalls, b, hq⟩ := h
  refine ⟨{ hcalls with }, { b with
    paired := fun p hp => ?_, inHand := fun t r ht hr => ?_, copied := fun e he => ?_ }, hq⟩
  · exact (b.paired p hp).imp (fun ⟨snd, hl⟩ => ⟨snd, hl.copy bytes⟩) (·.copy bytes)
  · obtain ⟨p, hp, hid, snd, hl⟩ := b.inHand t r ht hr
    exact ⟨p, hp, hid, snd, hl.copy bytes⟩
  · exact (List.mem_append.mp he).elim (b.copied e) (hb e)

theorem Books.end (hb : Books s) (hcalls : Calls s) (hp : p ∈ s.pairs) (hdone : Done s' p)
    (hfree : ∀ t r, s.receiving t = some r → r.id ≠ p.2)
    (hsame : s'.pairs = s.pairs ∧ s'.copied = s.copied ∧ s'.receiving = s.receiving)
    (hsent : s'.sent = s.sent ∧ s'.wanted = s.wanted)
    (htx : ∀ id, id ≠ p.1 → s'.txMsg id = s.txMsg id ∧ s'.completedOf id = s.completedOf id ∧
      s'.givenOf id = s.givenOf id)
    (hrx : ∀ id, id ≠ p.2 → s'.rxMsg id = s.rxMsg id ∧ s'.blocksOf id = s.blocksOf id)
    (hsend : ∀ snd c, c.id ≠ p.1 → (s'.sending snd = some c ↔ s.sending snd = some c)) :
    Books s' := by
  obtain ⟨hpairs, hcopied, hrecv⟩ := hsame
  have hbooks : ∀ q ∈ s.pairs, q ≠ p → SameBooks s s' q := fun q hq hne => by
    obtain ⟨h1, h2⟩ := hcalls.ne_of_ne hp hq hne
    obtain ⟨htx1, htx2⟩ := htx q.1 h1
    obtain ⟨hrx1, hrx2⟩ := hrx q.2 h2
    exact ⟨⟨by rw [hsent.1], by rw [hsent.2]⟩, ⟨htx1, hrx1⟩, hrx2, htx2⟩
  have hfst : ∀ id ∉ s.pairs.map Prod.fst, id ≠ p.1 := fun id hid he =>
    hid (he ▸ mem_map_of_mem hp)
  have hsnd : ∀ id ∉ s.pairs.map Prod.snd, id ≠ p.2 := fun id hid he =>
    hid (he ▸ mem_map_of_mem hp)
  refine ⟨?_, ?_, ?_, ?_, ?_, ?_, ?_, ?_, ?_⟩ <;> simp only [hpairs, hcopied, hrecv, hsent]
  · intro id hid
    rw [(htx id (hfst id hid)).1]
    exact hb.unmatchedTx id hid
  · intro id hid
    rw [(hrx id (hsnd id hid)).1]
    exact hb.unmatchedRx id hid
  · intro snd c hc
    exact hb.syncing snd c ((hsend snd c (hdone.idle snd c hc)).mp hc)
  · exact hb.compatible
  · intro q hq
    rcases eq_or_ne q p with rfl | hne
    · exact .inr hdone
    · refine paired_congr (hb.paired q hq) (hbooks q hq hne) fun snd c hid => hsend snd c ?_
      exact hid ▸ (hcalls.ne_of_ne hp hq hne).1
  · intro t r ht hr
    obtain ⟨q, hq, hid, snd, hl⟩ := hb.inHand t r ht hr
    have hne : q ≠ p := fun he => hfree t r ht (he ▸ hid.symm)
    refine ⟨q, hq, hid, snd, hl.congr (hbooks q hq hne) fun c hc hid => ?_⟩
    exact (hsend snd c (hid ▸ (hcalls.ne_of_ne hp hq hne).1)).mpr hc
  · intro id hid
    rw [(htx id (hfst id hid)).2.1, (htx id (hfst id hid)).2.2]
    exact hb.logTx id hid
  · intro id hid
    rw [(hrx id (hsnd id hid)).2]
    exact hb.logRx id hid
  · exact hb.copied

theorem Calls.unmatched_ne (h : Calls s) (hp : p ∈ s.pairs) (ht : s.receiving t = some r)
    (hr : r.paired = false) : r.id ≠ p.2 := fun he =>
  h.rx.unmatched t r ht hr (he ▸ mem_map_of_mem hp)

theorem Inv.resize (h : Inv s) (hp : p ∈ s.pairs)
    (hfree : ∀ t r, s.receiving t = some r → r.id ≠ p.2) (hdone : Done s p) (size : Nat) :
    Inv (s.resize p.2 size) := by
  obtain ⟨hcalls, hb, hq⟩ := h
  refine ⟨{ hcalls with }, hb.end hcalls hp (hdone.resize size) hfree ⟨rfl, rfl, rfl⟩ ⟨rfl, rfl⟩
    (fun _ _ => ⟨rfl, rfl, rfl⟩) (fun id hid => ⟨?_, rfl⟩) fun _ _ _ => .rfl,
    hq.mono (fun _ _ hc _ => ⟨hc, rfl⟩) fun t r ht hr => ⟨ht, ?_⟩⟩
  · simp [State.resize, hid]
  · simp [State.resize, hcalls.unmatched_ne hp ht hr]

end

theorem Inv.settle (h : Inv s) (hp : p ∈ s.pairs)
    (hfree : ∀ t r, s.receiving t = some r → r.id ≠ p.2) (hlive : Live s snd p)
    (hs : s.sending snd = some c) (size : Nat) (fate : Fate) :
    Inv (settle s snd c p.2 size fate) := by
  obtain ⟨hcalls, hb, hq⟩ := h
  have hinj : ∀ snd' c', s.sending snd' = some c' → c'.id = c.id → snd' = snd := fun snd' c' hc' =>
    hcalls.tx.inj snd' snd c' c hc' hs
  obtain ⟨timed, hsend⟩ := hlive.sending
  obtain rfl : c = ⟨p.1, timed, some p.2⟩ := Option.some.inj (hs.symm.trans hsend)
  have hdone := hlive.done_settle hs hinj size fate
  refine ⟨hcalls.settle hs (by simp), hb.end hcalls hp hdone hfree (by simp) (by simp)
    (fun id hid => ?_) (fun id hid => ?_) (fun snd' c' hid => ?_),
    hq.mono (fun snd' c' hc' _ => ?_) fun t r ht hr => ?_⟩
  · simp [completedOf_settle, givenOf_settle, hid]
  · simp [blocksOf_settle, hid]
  · rcases eq_or_ne snd' snd with rfl | hsnd
    · simp only [settle_fields, update_self, hs]
      exact iff_of_false nofun fun he => hid (by rw [← Option.some.inj he])
    · simp [hsnd]
  · have hne := hdone.idle snd' c' hc'
    simp only [settle_fields] at hc' ⊢
    rcases eq_some_of_update hc' with ⟨-, heq⟩ | ⟨-, hc'⟩
    · simp at heq
    · exact ⟨hc', by simp [hne]⟩
  · simp only [settle_fields] at ht ⊢
    exact ⟨ht, by simp [hcalls.unmatched_ne hp ht hr]⟩

theorem Inv.retrieved (h : Inv s) (hp : p ∈ s.pairs)
    (hfree : ∀ t r, s.receiving t = some r → r.id ≠ p.2) (hr : Retrieved s p s') : Inv s' := by
  cases hr with
  | settled snd c size fate bytes hlive hs hb =>
    have hc : Inv (s.copy bytes) := h.copy fun e he _ => ⟨p, hp, (hb e he).1.symm, (hb e he).2⟩
    exact hc.settle hp hfree (hlive.copy bytes) hs size fate
  | again size bytes hdone hb =>
    have hc : Inv (s.copy bytes) := h.copy fun e he ht => by simp [hb e he] at ht
    exact hc.resize hp hfree (hdone.copy bytes) size

end Zephyr.Mailbox
