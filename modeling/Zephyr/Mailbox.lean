import Zephyr.WaitQ

/-! The mailbox of `kernel/mailbox.c`: descriptors of senders and receivers, how the mailbox pairs
them, and how a receiver consumes or discards a message. -/

namespace Zephyr.Mailbox

open Function

def eAgain : Int := 11
def eNoMsg : Int := 80

inductive Sender (T D : Type) where
  | thread (t : T)
  | dummy (d : D)
deriving DecidableEq

/-- A `struct k_mbox_msg`: `none` is `NULL` or `K_ANY`, `txData` is what the pointer points at, and
a block comes with its contents. -/
structure Msg (T D A B S : Type) where
  size : Nat
  info : Nat
  txData : Option (List A)
  txBlock : Option (B × List A)
  rxSourceThread : Option T
  txTargetThread : Option T
  syncingThread : Option (Sender T D)
  asyncSem : Option S

variable {T D A B S : Type} [DecidableEq T] [DecidableEq D]

variable (tx rx : Msg T D A B S)

def Compatible : Prop :=
  (tx.txTargetThread = none ∨ tx.txTargetThread = rx.txTargetThread) ∧
    (rx.rxSourceThread = none ∨ rx.rxSourceThread = tx.rxSourceThread)

instance (tx rx : Msg T D A B S) : Decidable (Compatible tx rx) := by
  unfold Compatible
  infer_instance

def matchTx : Msg T D A B S :=
  { tx with txTargetThread := rx.txTargetThread, info := rx.info }

def matchRx : Msg T D A B S :=
  { rx with
    rxSourceThread := tx.rxSourceThread
    info := tx.info
    size := if tx.size < rx.size then tx.size else rx.size
    txData := match tx.txData with
      | some data => some data
      | none => tx.txBlock.map Prod.snd
    txBlock := if tx.txData.isSome then none else tx.txBlock
    syncingThread := tx.syncingThread }

/-- A call of `_mbox_message_put` whose message is not disposed of yet. -/
structure Send where
  -- the descriptor, which `swap_data` points at
  id : Nat
  timed : Bool
  -- the receive it is paired with
  partner : Option Nat
deriving DecidableEq

structure Receive where
  id : Nat
  timed : Bool
  buffer : Bool
  paired : Bool
deriving DecidableEq

inductive Fate where
  | released
  | handedOver
deriving DecidableEq

structure State (T D A B S : Type) where
  sends : Nat
  receives : Nat
  txMsg : Nat → Msg T D A B S
  rxMsg : Nat → Msg T D A B S
  txMsgQueue : List (Sender T D)
  rxMsgQueue : List T
  sending : Sender T D → Option Send
  receiving : T → Option Receive
  asyncMsgFree : List D
  asyncPrio : D → Int
  -- the descriptors as they were passed
  sent : Nat → Msg T D A B S
  wanted : Nat → Msg T D A B S
  -- receives that have returned 0
  received : List Nat
  pairs : List (Nat × Nat)
  -- the bytes copied for a receive, and whether its message was not disposed of before
  copied : List (Nat × Bool × List A)
  blocks : List (Nat × Fate × B)
  completed : List (Nat × Sender T D)
  given : List (Nat × S)
  returned : List (T × Int)

inductive Action (T A B S D : Type) where
  | put (t : T) (msg : Msg T D A B S) (timeout : Wait)
  | asyncPut (t : T) (msg : Msg T D A B S) (sem : Option S)
  | get (t : T) (msg : Msg T D A B S) (buffer : Bool) (timeout : Wait)
  | resume (t : T)
  | timeoutPut (t : T)
  | timeoutGet (t : T)
  -- `stale` is what `tx_data` points at once the message was disposed of
  | dataGet (t : T) (id : Nat) (buffer : Bool) (stale : List A)
  -- with the error of `k_mem_pool_alloc`, if it is called and fails
  | dataBlockGet (t : T) (id : Nat) (pool : Bool) (stale : List A) (err : Option Int)

def initMboxModule (n : Nat) : List (Fin n) := (List.finRange n).foldl (fun free d => d :: free) []

def init (junk : Msg T D A B S) (asyncMsgFree : List D) : State T D A B S where
  sends := 0
  receives := 0
  txMsg _ := junk
  rxMsg _ := junk
  txMsgQueue := []
  rxMsgQueue := []
  sending _ := none
  receiving _ := none
  asyncMsgFree := asyncMsgFree
  asyncPrio _ := 0
  sent _ := junk
  wanted _ := junk
  received := []
  pairs := []
  copied := []
  blocks := []
  completed := []
  given := []
  returned := []

variable (prio : T → Int) (s : State T D A B S) (t : T)

def State.ret (code : Int) : State T D A B S :=
  { s with returned := s.returned ++ [(t, code)] }

def senderPrio : Sender T D → Int
  | .thread t => prio t
  | .dummy d => s.asyncPrio d

/-- `_mbox_message_match` of two compatible descriptors, with what becomes of the two threads. -/
def State.pair (snd : Sender T D) (c : Send) (t : T) (r : Receive) : State T D A B S :=
  { s with
    txMsg := update s.txMsg c.id (matchTx (s.txMsg c.id) (s.rxMsg r.id))
    rxMsg := update s.rxMsg r.id (matchRx (s.txMsg c.id) (s.rxMsg r.id))
    sending := update s.sending snd (some { c with partner := some r.id })
    receiving := update s.receiving t (some { r with paired := true })
    pairs := s.pairs ++ [(c.id, r.id)] }

def findReceiver (tx : Msg T D A B S) : Option (T × Receive) :=
  s.rxMsgQueue.findSome? fun t => (s.receiving t).bind fun r =>
    if Compatible tx (s.rxMsg r.id) then some (t, r) else none

def findSender (rx : Msg T D A B S) : Option (Sender T D × Send) :=
  s.txMsgQueue.findSome? fun snd => (s.sending snd).bind fun c =>
    if Compatible (s.txMsg c.id) rx then some (snd, c) else none

/-- `snd` is the calling thread `t` itself, or a dummy thread. -/
def mboxMessagePut (snd : Sender T D) (msg : Msg T D A B S) (timeout : Wait) : State T D A B S :=
  let tx := { msg with rxSourceThread := some t, syncingThread := some snd }
  let c : Send := ⟨s.sends, timeout ≠ .forever, none⟩
  let s := { s with
    sends := s.sends + 1
    txMsg := update s.txMsg c.id tx
    sent := update s.sent c.id tx }
  match findReceiver s tx with
  | some (receiver, r) =>
    { s.pair snd c receiver r with rxMsgQueue := s.rxMsgQueue.erase receiver }
  | none =>
    if timeout = .noWait then s.ret t (-eNoMsg)
    else { s with
      sending := update s.sending snd (some c)
      txMsgQueue := pendThread (senderPrio prio s) snd s.txMsgQueue }

variable (msg : Msg T D A B S)

def kMboxPut (timeout : Wait) : State T D A B S :=
  mboxMessagePut prio s t (.thread t) msg timeout

/-- It waits in `_mbox_async_alloc` until a descriptor is free. -/
def kMboxAsyncPut (sem : Option S) : Option (State T D A B S) :=
  match s.asyncMsgFree with
  | [] => none
  | d :: free =>
    let s := { s with asyncMsgFree := free, asyncPrio := update s.asyncPrio d (prio t) }
    mboxMessagePut prio s t (.dummy d) { msg with asyncSem := sem } .forever

/-- Up to `_mbox_message_data_check`, or to the `_Swap` that puts the caller to sleep. -/
def kMboxGet (buffer : Bool) (timeout : Wait) : State T D A B S :=
  let rx := { msg with txTargetThread := some t }
  let r : Receive := ⟨s.receives, timeout ≠ .forever, buffer, false⟩
  let s := { s with
    receives := s.receives + 1
    rxMsg := update s.rxMsg r.id rx
    wanted := update s.wanted r.id rx }
  match findSender s rx with
  | some (snd, c) => { s.pair snd c t r with txMsgQueue := s.txMsgQueue.erase snd }
  | none =>
    if timeout = .noWait then s.ret t (-eNoMsg)
    else { s with
      receiving := update s.receiving t (some r)
      rxMsgQueue := pendThread prio t s.rxMsgQueue }

def complete (c : Send) (sem : Option S) : Sender T D → State T D A B S
  | .thread t =>
    State.ret { s with completed := s.completed ++ [(c.id, .thread t)] } t 0
  | .dummy d => { s with
      asyncMsgFree := d :: s.asyncMsgFree
      completed := s.completed ++ [(c.id, .dummy d)]
      given := s.given ++ sem.toList.map (c.id, ·) }

def mboxMessageDispose (id : Nat) : State T D A B S :=
  let rx := s.rxMsg id
  match rx.syncingThread with
  | none => s
  | some snd => match s.sending snd with
    | none => s
    | some c =>
      let tx := s.txMsg c.id
      complete { s with
        blocks := s.blocks ++ rx.txBlock.toList.map fun b => (id, .released, b.1)
        rxMsg := update s.rxMsg id { rx with txBlock := none, syncingThread := none }
        txMsg := update s.txMsg c.id { tx with size := rx.size }
        sending := update s.sending snd none } c tx.asyncSem snd

def kMboxDataGet (id : Nat) (buffer : Bool) (stale : List A) : State T D A B S :=
  let rx := s.rxMsg id
  if !buffer then
    mboxMessageDispose { s with rxMsg := update s.rxMsg id { rx with size := 0 } } id
  else
    let live := rx.syncingThread.isSome
    let bytes := match rx.txData with
      | some data => if 0 < rx.size then [(id, live, (if live then data else stale).take rx.size)]
        else []
      | none => []
    mboxMessageDispose { s with copied := s.copied ++ bytes } id

def kMboxDataBlockGet (id : Nat) (pool : Bool) (stale : List A)
    (err : Option Int) : State T D A B S :=
  let rx := s.rxMsg id
  if !pool then
    (mboxMessageDispose { s with rxMsg := update s.rxMsg id { rx with size := 0 } } id).ret t 0
  else match rx.txBlock with
    | some b =>
      (mboxMessageDispose { s with
        blocks := s.blocks ++ [(id, .handedOver, b.1)]
        rxMsg := update s.rxMsg id { rx with txBlock := none } } id).ret t 0
    | none => match err with
      | some err => s.ret t err
      | none => (kMboxDataGet s id true stale).ret t 0

def mboxMessageDataCheck (r : Receive) : State T D A B S :=
  if r.buffer then kMboxDataGet s r.id true []
  else if (s.rxMsg r.id).size = 0 then mboxMessageDispose s r.id
  else s

def step : Action T A B S D → Option (State T D A B S)
  | .put t msg timeout => kMboxPut prio s t msg timeout
  | .asyncPut t msg sem => kMboxAsyncPut prio s t msg sem
  | .get t msg buffer timeout => kMboxGet prio s t msg buffer timeout
  | .resume t => match s.receiving t with
    | some r =>
      if r.paired then
        (mboxMessageDataCheck { s with
          receiving := update s.receiving t none
          received := s.received ++ [r.id] } r).ret t 0
      else none
    | none => none
  | .timeoutPut t => match s.sending (.thread t) with
    | some c =>
      if c.timed ∧ c.partner = none then
        State.ret { s with
          sending := update s.sending (.thread t) none
          txMsgQueue := s.txMsgQueue.erase (.thread t) } t (-eAgain)
      else none
    | none => none
  | .timeoutGet t => match s.receiving t with
    | some r =>
      if r.timed ∧ ¬ r.paired then
        State.ret { s with
          receiving := update s.receiving t none
          rxMsgQueue := s.rxMsgQueue.erase t } t (-eAgain)
      else none
    | none => none
  | .dataGet _ id buffer stale => kMboxDataGet s id buffer stale
  | .dataBlockGet t id pool stale err => kMboxDataBlockGet s t id pool stale err

def Allowed : Action T A B S D → Prop
  | .put t _ _ | .asyncPut t _ _ | .get t _ _ _ =>
    s.sending (.thread t) = none ∧ s.receiving t = none
  | .dataGet t id _ _ | .dataBlockGet t id _ _ _ =>
    (s.sending (.thread t) = none ∧ s.receiving t = none) ∧ id ∈ s.received
  | _ => True

instance (s : State T D A B S) (a : Action T A B S D) : Decidable (Allowed s a) := by
  cases a <;> unfold Allowed <;> infer_instance

end Zephyr.Mailbox
