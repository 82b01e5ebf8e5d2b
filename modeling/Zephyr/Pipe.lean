import Zephyr.Ledger
import Zephyr.RingBuffer
import Zephyr.WaitQ

/-! `kernel/pipes.c`. Bytes go from a writer to readers that wait, or into the circular buffer, or
stay with the writer while it waits. A call runs up to the point where its thread pends: the
scheduler is locked, but ticks are delivered and may time out threads that wait. -/

namespace Zephyr.Pipe

open Function

def eIo : Int := -5

def eAgain : Int := -11

/-- The fields of `struct k_pipe` but for the wait queues. -/
structure KPipe (A : Type) where
  buffer : Nat → A
  size : Nat
  bytesUsed : Nat
  readIndex : Nat
  writeIndex : Nat

variable {A T D B S W : Type}

section

variable (p : KPipe A) (destSize : Nat) (src : List A)

def pipeXfer : List A × List A :=
  (src.take destSize, src.drop destSize)

def putRound : KPipe A × List A :=
  let runLength := min (p.size - p.bytesUsed) (p.size - p.writeIndex)
  let (copied, rest) := pipeXfer runLength src
  let writeIndex := p.writeIndex + copied.length
  ({ p with
    buffer := writeRun p.buffer p.writeIndex copied
    bytesUsed := p.bytesUsed + copied.length
    writeIndex := if writeIndex = p.size then 0 else writeIndex }, rest)

def pipeBufferPut : KPipe A × List A :=
  let (p, src) := putRound p src
  putRound p src

def getRound : KPipe A × List A :=
  let runLength := min p.bytesUsed (p.size - p.readIndex)
  let (copied, _) := pipeXfer destSize (readRun p.buffer p.readIndex runLength)
  let readIndex := p.readIndex + copied.length
  ({ p with
    bytesUsed := p.bytesUsed - copied.length
    readIndex := if readIndex = p.size then 0 else readIndex }, copied)

def pipeBufferGet : KPipe A × List A :=
  let (p, first) := getRound p destSize
  let (p, second) := getRound p (destSize - first.length)
  (p, first ++ second)

inductive Timeout where
  | noWait
  | ms (n : Nat)
  | forever
deriving DecidableEq

def requested (bytes : W → Nat) (bytesToXfer : Nat) : Nat → List W → Nat
  | numBytes, [] => numBytes
  | numBytes, w :: waitQ =>
    if bytesToXfer ≤ numBytes + bytes w then numBytes + bytes w
    else requested bytes bytesToXfer (numBytes + bytes w) waitQ

def workingSet (bytes : W → Nat) (bytesToXfer : Nat) : Nat → List W → List W × Option W × List W
  | _, [] => ([], none, [])
  | numBytes, w :: waitQ =>
    if bytesToXfer < numBytes + bytes w then ([], some w, w :: waitQ)
    else
      let (xferList, waiter, waitQ) := workingSet bytes bytesToXfer (numBytes + bytes w) waitQ
      (w :: xferList, waiter, waitQ)

def pipeXferPrepare (bytes : W → Nat) (waitQ : List W) (pipeSpace bytesToXfer minXfer : Nat)
    (timeout : Timeout) : Option (List W × Option W × List W) :=
  if timeout = .noWait ∧ requested bytes bytesToXfer 0 waitQ + pipeSpace < minXfer then none
  else some (workingSet bytes bytesToXfer 0 waitQ)

def pipeReturnCode (minXfer bytesRemaining bytesRequested : Nat) : Int :=
  if minXfer ≤ bytesRequested - bytesRemaining then 0 else eAgain

inductive Writer (T D : Type) where
  | thread (t : T)
  | dummy (d : D)
deriving DecidableEq

/-- A call of `k_pipe_put` that has pended, with the bytes that its `pipe_desc` has left to write. -/
structure PutCall (A : Type) where
  data : List A
  rest : List A
  minXfer : Nat
  timeout : Timeout

/-- A call of `k_pipe_get` that has pended, with the bytes stored so far and the number left. -/
structure GetCall (A : Type) where
  bytesToRead : Nat
  stored : List A
  bytesToXfer : Nat
  minXfer : Nat
  timeout : Timeout

/-- A `struct k_pipe_async`: the bytes its `desc` points at and whether its thread's timeout reads as
inactive. The array is not initialised, and only the next two fields are set by `k_pipe_block_put`.
The last one only records which call uses the descriptor. -/
structure Async (A B S : Type) where
  bytes : List A
  inactive : Bool
  block : B
  sem : Option S
  id : Nat

inductive Result (A T : Type) where
  | put (t : T) (k : Nat) (data : List A) (minXfer bytesWritten : Nat) (code : Int)
  | get (t : T) (k bytesToRead minXfer : Nat) (stored : List A) (bytesRead : Nat) (code : Int)

/-- The three parts of `_pipe_async_finish`, with the number of the call that they finish. -/
inductive FinishOp (D B S : Type) where
  | memPoolFree (id : Nat) (block : B)
  | semGive (id : Nat) (sem : S)
  | stackPush (id : Nat) (d : D)
deriving DecidableEq

/-- A pipe with its wait queues, the calls that have pended, and the asynchronous descriptors. The
fields from `made` on only record: the number of calls that returned for each thread, the bytes
taken from writers and stored for readers, with the calls they belong to, what calls returned, the
operations that finished asynchronous writes, and the number of those writes. -/
structure State (A T D B S : Type) where
  pipe : KPipe A
  readers : List T
  writers : List (Writer T D)
  prio : Writer T D → Int
  putCall : T → Option (PutCall A)
  getCall : T → Option (GetCall A)
  async : D → Async A B S
  free : List D
  made : T → Nat
  accepted : List (Tag T × A)
  received : List (Tag T × A)
  returned : List (Result A T)
  finished : List (FinishOp D B S)
  blocks : Nat

variable (s : State A T D B S)

def State.now (t : T) : Tag T := .thread t (s.made t)

def readerLeft (t : T) : Nat :=
  match s.getCall t with
  | some c => c.bytesToXfer
  | none => 0

def descBytes : Writer T D → List A
  | .thread t =>
    match s.putCall t with
    | some c => c.rest
    | none => []
  | .dummy d => (s.async d).bytes

def writerTag : Writer T D → Tag T
  | .thread t => s.now t
  | .dummy d => .block (s.async d).id

def Timeout.expires : Timeout → Bool
  | .ms _ => true
  | .noWait | .forever => false

def timesOut [DecidableEq T] (ts : List T) (t : T) : Bool :=
  ts.contains t && ((s.putCall t).any (·.timeout.expires) || (s.getCall t).any (·.timeout.expires))

/-- `_abort_thread_timeout` on a dummy thread, whose timeout nobody has initialised: when it does not
read as inactive, the call unlinks a node that is on no list. -/
def abortable : Writer T D → Bool
  | .thread _ => true
  | .dummy d => (s.async d).inactive

end

variable [DecidableEq T] [DecidableEq D]

variable (s : State A T D B S)

def expire (ts : List T) : State A T D B S :=
  { s with
    readers := s.readers.filter (!timesOut s ts ·)
    writers := s.writers.filter fun w => match w with
      | .thread t => !timesOut s ts t
      | .dummy _ => true }

variable (g : Tag T) (t : T)

def storeBytes (bytes : List A) : State A T D B S :=
  match s.getCall t with
  | some c =>
    { s with
      getCall := update s.getCall t (some { c with
        stored := c.stored ++ bytes, bytesToXfer := c.bytesToXfer - bytes.length })
      received := s.received ++ tagged (s.now t) bytes }
  | none => s

def advance (w : Writer T D) (bytesCopied : Nat) : State A T D B S :=
  match w with
  | .thread t =>
    match s.putCall t with
    | some c =>
      { s with
        putCall := update s.putCall t (some { c with rest := c.rest.drop bytesCopied }) }
    | none => s
  | .dummy d =>
    { s with
      async := update s.async d
        { s.async d with bytes := (s.async d).bytes.drop bytesCopied } }

def pipeAsyncFinish (d : D) : State A T D B S :=
  let a := s.async d
  { s with
    free := d :: s.free
    finished := s.finished ++ .memPoolFree a.id a.block ::
      (a.sem.toList.map (.semGive a.id) ++ [.stackPush a.id d]) }

def pipeThreadReady : Writer T D → State A T D B S
  | .thread _ => s
  | .dummy d => pipeAsyncFinish s d

def xferToReader (a : State A T D B S × List A) (t : T) : State A T D B S × List A :=
  let (s, data) := a
  let (copied, rest) := pipeXfer (readerLeft s t) data
  let s := storeBytes s t copied
  ({ s with accepted := s.accepted ++ tagged g copied }, rest)

def putToBuffer (src : List A) : State A T D B S × List A :=
  let (pipe, rest) := pipeBufferPut s.pipe src
  ({ s with pipe, accepted := s.accepted ++ tagged g (src.take (src.length - rest.length)) }, rest)

/-- The copying in `_k_pipe_put_internal`: to the working readers, to the reader left on the wait
queue, and to the circular buffer. -/
def putData (xferList : List T) (reader : Option T) (data : List A) : State A T D B S × List A :=
  let (s, data) := xferList.foldl (xferToReader g) (s, data)
  let (s, data) := reader.toList.foldl (xferToReader g) (s, data)
  putToBuffer s g data

def returnPut (data : List A) (minXfer bytesWritten : Nat) (code : Int) : State A T D B S :=
  { s with
    putCall := update s.putCall t none
    made := update s.made t (s.made t + 1)
    returned := s.returned ++ [.put t (s.made t) data minXfer bytesWritten code] }

def returnGet (bytesToRead minXfer : Nat) (stored : List A)
    (bytesRead : Nat) (code : Int) : State A T D B S :=
  { s with
    getCall := update s.getCall t none
    made := update s.made t (s.made t + 1)
    returned := s.returned ++ [.get t (s.made t) bytesToRead minXfer stored bytesRead code] }

def kPipePutInternal (asyncDesc : Option D) (data : List A)
    (minXfer : Nat) (timeout : Timeout) (expired : List T) : State A T D B S :=
  let g := match asyncDesc with
    | some d => writerTag s (.dummy d)
    | none => s.now t
  match pipeXferPrepare (readerLeft s) s.readers (s.pipe.size - s.pipe.bytesUsed) data.length
    minXfer timeout with
  | none =>
    match asyncDesc with
    | some _ => s
    | none => returnPut s t data minXfer 0 eIo
  | some (xferList, reader, readers) =>
    let s := expire { s with readers } expired
    let (s, rest) := putData s g xferList reader data
    if rest.length = 0 then
      match asyncDesc with
      | some d => pipeAsyncFinish s d
      | none => returnPut s t data minXfer data.length 0
    else
      match asyncDesc with
      | some d => { s with writers := pendThread s.prio (.dummy d) s.writers }
      | none =>
        if timeout = .noWait then
          returnPut s t data minXfer (data.length - rest.length)
            (pipeReturnCode minXfer rest.length data.length)
        else { s with
          putCall := update s.putCall t (some ⟨data, rest, minXfer, timeout⟩)
          writers := pendThread s.prio (.thread t) s.writers }

def kPipePut (data : List A) (minXfer : Nat) (timeout : Timeout)
    (expired : List T) : State A T D B S :=
  kPipePutInternal s t none data minXfer timeout expired

def kPipeBlockPut (block : B) (data : List A) (sem : Option S)
    (expired : List T) : Option (State A T D B S) :=
  match s.free with
  | [] => none
  | d :: free =>
    let s := { s with
      free
      async := update s.async d { s.async d with block, sem, id := s.blocks }
      prio := update s.prio (.dummy d) (s.prio (.thread t))
      blocks := s.blocks + 1 }
    some (kPipePutInternal s t (some d) data data.length .forever expired)

def xferFromWriter (bytesToRead : Nat) (s : State A T D B S) (stored : List A)
    (w : Writer T D) : State A T D B S × List A :=
  let (copied, _) := pipeXfer (bytesToRead - stored.length) (descBytes s w)
  ({ advance s w copied.length with
    accepted := s.accepted ++ tagged (writerTag s w) copied
    received := s.received ++ tagged g copied }, stored ++ copied)

def readWriters (g : Tag T) (bytesToRead : Nat) : State A T D B S → List A → List (Writer T D) →
      State A T D B S × List A × List (Writer T D)
  | s, stored, [] => (s, stored, [])
  | s, stored, w :: xferList =>
    if stored.length < bytesToRead then
      let (s, stored) := xferFromWriter g bytesToRead s stored w
      if stored.length = bytesToRead then (s, stored, w :: xferList)
      else readWriters g bytesToRead (pipeThreadReady s w) stored xferList
    else (s, stored, w :: xferList)

def refillFrom (w : Writer T D) : State A T D B S :=
  let src := descBytes s w
  let (s, rest) := putToBuffer s (writerTag s w) src
  advance s w (src.length - rest.length)

def getData (bytesToRead : Nat)
    (xferList : List (Writer T D)) (writer : Option (Writer T D)) : State A T D B S × List A :=
  let (pipe, stored) := pipeBufferGet s.pipe bytesToRead
  let s := { s with pipe, received := s.received ++ tagged g stored }
  let (s, stored, xferList) := readWriters g bytesToRead s stored xferList
  let (s, stored) := match writer with
    | some w =>
      if stored.length < bytesToRead then xferFromWriter g bytesToRead s stored w else (s, stored)
    | none => (s, stored)
  let s := xferList.foldl (fun s w => pipeThreadReady (refillFrom s w) w) s
  (writer.toList.foldl refillFrom s, stored)

/-- `none` when the timeout of a dummy thread is aborted that is not initialised. -/
def kPipeGet (bytesToRead minXfer : Nat) (timeout : Timeout)
    (expired : List T) : Option (State A T D B S) :=
  match pipeXferPrepare (fun w => (descBytes s w).length) s.writers s.pipe.bytesUsed bytesToRead
    minXfer timeout with
  | none => some (returnGet s t bytesToRead minXfer [] 0 eIo)
  | some (xferList, writer, writers) =>
    if xferList.all (abortable s) then
      let s := expire { s with writers } expired
      let (s, stored) := getData s (s.now t) bytesToRead xferList writer
      some (if stored.length = bytesToRead then
        returnGet s t bytesToRead minXfer stored stored.length 0
      else if timeout = .noWait then
        returnGet s t bytesToRead minXfer stored (bytesToRead - (bytesToRead - stored.length))
          (pipeReturnCode minXfer (bytesToRead - stored.length) bytesToRead)
      else { s with
        getCall := update s.getCall t
          (some ⟨bytesToRead, stored, bytesToRead - stored.length, minXfer, timeout⟩)
        readers := pendThread (fun t => s.prio (.thread t)) t s.readers })
    else none

def returnCall : Option (State A T D B S) :=
  match s.putCall t, s.getCall t with
  | some c, none =>
    if .thread t ∈ s.writers then none
    else some (returnPut s t c.data c.minXfer (c.data.length - c.rest.length)
      (pipeReturnCode c.minXfer c.rest.length c.data.length))
  | none, some c =>
    if t ∈ s.readers then none
    else some (returnGet s t c.bytesToRead c.minXfer c.stored (c.bytesToRead - c.bytesToXfer)
      (pipeReturnCode c.minXfer c.bytesToXfer c.bytesToRead))
  | _, _ => none

inductive Act (A T B S : Type) where
  | put (t : T) (data : List A) (minXfer : Nat) (timeout : Timeout) (expired : List T)
  | get (t : T) (bytesToRead minXfer : Nat) (timeout : Timeout) (expired : List T)
  | blockPut (t : T) (block : B) (data : List A) (sem : Option S) (expired : List T)
  | timeout (ts : List T)
  | ret (t : T)
  | prioritySet (t : T) (prio : Int)

def step : Act A T B S → Option (State A T D B S)
  | .put t data minXfer timeout expired => some (kPipePut s t data minXfer timeout expired)
  | .get t bytesToRead minXfer timeout expired => kPipeGet s t bytesToRead minXfer timeout expired
  | .blockPut t block data sem expired => kPipeBlockPut s t block data sem expired
  | .timeout ts => some (expire s ts)
  | .ret t => returnCall s t
  | .prioritySet t prio => some { s with prio := update s.prio (.thread t) prio }

def Allowed : Act A T B S → Prop
  | .put t _ _ _ _ | .get t _ _ _ _ | .blockPut t _ _ _ _ =>
    s.putCall t = none ∧ s.getCall t = none
  | .timeout _ | .ret _ | .prioritySet _ _ => True

def Sync : Act A T B S → Prop
  | .blockPut _ _ _ _ _ => False
  | _ => True

def initState (buffer : Nat → A) (size : Nat) (prio : Writer T D → Int) (async : D → Async A B S)
    (free : List D) : State A T D B S where
  pipe := ⟨buffer, size, 0, 0, 0⟩
  readers := []
  writers := []
  prio := prio
  putCall := fun _ => none
  getCall := fun _ => none
  async := async
  free := free
  made := fun _ => 0
  accepted := []
  received := []
  returned := []
  finished := []
  blocks := 0

end Zephyr.Pipe
