import Zephyr.Slist
import Zephyr.Poll

/-! `kernel/queue.c` with `CONFIG_POLL`: a reader that finds the data list empty polls the queue with
an event of its own and tries again when it is woken. One poller is signalled for each call that
inserts. While a reader waits there are no more items than readers that will look at the list. -/

namespace Zephyr.KQueuePoll

open Function

/-- Where a thread is in `k_queue_get` with `K_FOREVER`: about to call `k_poll`, in it, or about to
look at the data list again. -/
inductive Reader where
  | idle
  | called
  | polling
  | retry
deriving DecidableEq

/-- The event of a reader has the reader's name. The last two fields only record: the items given
to a call and not yet returned, and the readers that were signalled and have not looked at the data
list since. -/
structure PollQueue (T A : Type) where
  poll : Poll.State T Unit T
  dataQ : Slist A
  reader : T → Reader
  lent : A → Bool
  woken : List T

section

variable {T A : Type} [DecidableEq T] [DecidableEq A]

variable (s : PollQueue T A)

def handlePollEvents : PollQueue T A :=
  { s with
    poll := Poll.handleObjPollEvents { s.poll with met := fun _ => !sysSlistIsEmpty s.dataQ } ()
      Poll.Kind.queue.state
    woken := match sysDlistPeekHead s.poll.links (.obj ()) with
      | some (.event t) => t :: s.woken
      | _ => s.woken }

/-- `k_queue_append` passes the tail it has read before it locked, `k_queue_prepend` a null
pointer. -/
def kQueueInsert (prev : Option A) (data : A) : PollQueue T A :=
  handlePollEvents { s with
    dataQ := sysSlistInsert s.dataQ prev data, lent := update s.lent data true }

def kQueueAppendList (items : List A) (head tail : A) : PollQueue T A :=
  handlePollEvents { s with
    dataQ := sysSlistAppendList s.dataQ head tail
    lent := fun a => if a ∈ items then true else s.lent a }

def takeData : Option A × PollQueue T A :=
  match sysSlistGet s.dataQ with
  | (some data, dataQ) =>
    (some data, { s with
      dataQ
      poll := { s.poll with met := fun _ => !sysSlistIsEmpty dataQ }
      lent := update s.lent data false })
  | (none, _) => (none, s)

variable (t : T)

/-- The locked section at the start of `k_queue_get`, and `k_poll_event_init`. -/
def kQueueGet : PollQueue T A :=
  match takeData s with
  | (some _, s) => s
  | (none, s) =>
    { s with
      reader := update s.reader t .called
      poll := { s.poll with
        obj := update s.poll.obj t (some ())
        poller := update s.poll.poller t none
        eventState := update s.poll.eventState t Poll.stateNotReady } }

def retryGet : PollQueue T A :=
  let s := { s with woken := s.woken.erase t }
  match takeData s with
  | (some _, s) => { s with reader := update s.reader t .idle }
  | (none, s) => { s with reader := update s.reader t .called }

inductive Part where
  | scan
  | decide
  | wake
  | clear
deriving DecidableEq

def Part.act : Part → Poll.Act T Unit T
  | .scan => .scan t
  | .decide => .decide t
  | .wake => .wake t
  | .clear => .clear t

/-- A section of `k_poll`; when it returns, an error ends `k_queue_get`. -/
def pollPart (prio : T → Int) (s : PollQueue T A) (t : T) (part : Part) :
    Option (PollQueue T A) := do
  let poll ← Poll.step (fun _ => .queue) prio s.poll (part.act t)
  let reader := match poll.pc t with
    | .idle => if poll.ret t = 0 then .retry else .idle
    | _ => .polling
  return { s with poll, reader := update s.reader t reader }

inductive Act (T A : Type) where
  | insert (prev : Option A) (data : A)
  | appendList (items : List A)
  | get (t : T)
  | call (t : T)
  | poll (t : T) (part : Part)
  | retry (t : T)
  | write (a : A) (next : Option A)
deriving DecidableEq

/-- In `call` the reader enters `k_poll`; in `write` the application uses the first word of an item
that it holds. -/
def step (prio : T → Int) (s : PollQueue T A) : Act T A → Option (PollQueue T A)
  | .insert prev data => some (kQueueInsert s prev data)
  | .appendList items =>
    match items.head?, items.getLast? with
    | some head, some tail => some (kQueueAppendList s items head tail)
    | _, _ => none
  | .get t => if s.reader t = .idle then some (kQueueGet s t) else none
  | .call t =>
    if s.reader t = .called then do
      let poll ← Poll.step (fun _ => .queue) prio
        { s.poll with eventState := update s.poll.eventState t Poll.stateNotReady }
        (.poll t [t] false)
      return { s with poll, reader := update s.reader t .polling }
    else none
  | .poll t part => if s.reader t = .polling then pollPart prio s t part else none
  | .retry t => if s.reader t = .retry then some (retryGet s t) else none
  | .write a next =>
    some { s with dataQ := { s.dataQ with next := update s.dataQ.next a next } }

def Allowed : Act T A → Prop
  | .insert _ data => s.lent data = false
  | .appendList items => items.Nodup ∧ (∀ a ∈ items, s.lent a = false) ∧
      linked s.dataQ.next items.head? items = true
  | .write a _ => s.lent a = false
  | .get _ | .call _ | .poll _ _ | .retry _ => True

instance (s : PollQueue T A) (a : Act T A) : Decidable (Allowed s a) :=
  match a with
  | .insert _ _ | .write _ _ => inferInstanceAs (Decidable (_ = false))
  | .appendList _ => inferInstanceAs (Decidable (_ ∧ _ ∧ _))
  | .get _ | .call _ | .poll _ _ | .retry _ => inferInstanceAs (Decidable True)

/-- A list of several items is appended only while at most one reader is registered, and a reader
that clears its registration leaves those of the others alone. -/
def WakesEnough : Act T A → Prop
  | .appendList items => items.length ≤ 1 ∨
      s.poll.links.next (.obj ()) = s.poll.links.prev (.obj ())
  | .poll t part => Poll.ClearsInPlace s.poll (part.act t)
  | .insert _ _ | .get _ | .call _ | .retry _ | .write _ _ => True

instance (s : PollQueue T A) (a : Act T A) : Decidable (WakesEnough s a) :=
  match a with
  | .appendList _ => inferInstanceAs (Decidable (_ ∨ _))
  | .poll _ _ => inferInstanceAs (Decidable (Poll.ClearsInPlace _ _))
  | .insert _ _ | .get _ | .call _ | .retry _ | .write _ _ => inferInstanceAs (Decidable True)

def initQueue (links : Links (Poll.Node Unit T)) (next : A → Option A) : PollQueue T A where
  poll := Poll.initState links (fun _ => none) (fun _ => false)
  dataQ := sysSlistInit ⟨next, none, none⟩
  reader := fun _ => .idle
  lent := fun _ => false
  woken := []

/-- Every thread has returned from `k_queue_get` or is blocked in it. -/
def Quiescent : Prop :=
  ∀ t, s.reader t = .idle ∨ s.reader t = .polling ∧ s.poll.pending t = true

end

open List

variable {T A : Type}

def Waiting (s : PollQueue T A) (t : T) : Prop :=
  t ∈ (s.poll.pc t).registered ∧ s.poll.signalled t = false

/-- A reader in `k_queue_get`: what its `k_poll` has to do with, and that a woken reader is on its way
back to the data list. -/
structure ReaderOk (s : PollQueue T A) (t : T) : Prop where
  scan : ∀ events ii n noWait, s.poll.pc t = .scan events ii n noWait →
    events = [t] ∧ noWait = false
  pended : ∀ events n, s.poll.pc t = .pended events n → events = [t]
  clear : ∀ left, s.poll.pc t = .clear left → left ⊆ [t]
  reader : s.reader t = .polling ↔ s.poll.pc t ≠ .idle
  obj : s.reader t ≠ .idle → s.poll.obj t = some ()
  expired : s.poll.expired t = false
  pending : s.poll.pending t = true → Waiting s t ∧ ∃ events n, s.poll.pc t = .pended events n
  polling : s.poll.polling t = true → t ∈ (s.poll.pc t).registered → s.poll.signalled t = false
  ret : Poll.Woken s.poll t → s.poll.ret t = 0
  woken : t ∈ s.woken → ¬ Waiting s t ∧ (s.reader t = .retry ∨
    s.reader t = .polling ∧ s.poll.pending t = false ∧ s.poll.polling t = false)

structure Readers (s : PollQueue T A) : Prop where
  poll : ∃ lists, Poll.Inv lists s.poll
  ok : ∀ t, ReaderOk s t
  nodup : s.woken.Nodup

structure Inv (contents : List A) (s : PollQueue T A) : Prop where
  readers : Readers s
  data : s.dataQ.IsList contents
  lent : ∀ a ∈ contents, s.lent a = true
  met : s.poll.met () = true ↔ contents ≠ []
  enough : (∃ t, Waiting s t) → contents.length ≤ s.woken.length

variable {s : PollQueue T A} {contents : List A} {t : T} {lists : Unit → List T} {e : T}

theorem Readers.own (h : Readers s) (he : e ∈ (s.poll.pc t).events) : e = t := by
  cases hpc : s.poll.pc t with
  | idle => simp [hpc, Poll.Pc.events] at he
  | scan events ii n noWait =>
    obtain ⟨rfl, -⟩ := (h.ok t).scan events ii n noWait hpc
    simpa [hpc, Poll.Pc.events] using he
  | pended events n =>
    obtain rfl := (h.ok t).pended events n hpc
    simpa [hpc, Poll.Pc.events] using he
  | clear left =>
    rw [hpc] at he
    simpa using (h.ok t).clear left hpc he

theorem Readers.polling_of_waiting (h : Readers s) (hw : Waiting s t) : s.reader t = .polling := by
  refine (h.ok t).reader.mpr fun hf => ?_
  have := hw.1
  simp [hf, Poll.Pc.registered] at this

theorem Readers.waiting_iff (h : Readers s)
    (hi : Poll.Inv lists s.poll) (t : T) : t ∈ lists () ↔ Waiting s t := by
  rw [hi.mem]
  constructor
  · rintro ⟨-, hs, _, ht⟩
    obtain rfl := h.own (Poll.Pc.registered_subset _ ht)
    exact ⟨ht, hs⟩
  · rintro ⟨ht, hs⟩
    refine ⟨(h.ok t).obj ?_, hs, t, ht⟩
    rw [h.polling_of_waiting ⟨ht, hs⟩]
    exact Reader.noConfusion

theorem ReaderOk.pc_idle (h : ReaderOk s t) (hr : s.reader t ≠ .polling) : s.poll.pc t = .idle := by
  by_contra hf
  exact hr (h.reader.mpr hf)

theorem ReaderOk.not_pending (h : ReaderOk s t)
    (hpc : ∀ events n, s.poll.pc t ≠ .pended events n) : s.poll.pending t = false := by
  by_contra hf
  obtain ⟨-, events, n, he⟩ := h.pending (by simpa using hf)
  exact hpc events n he

structure Unmoved (t : T) (r s : PollQueue T A) : Prop where
  reader : r.reader t = s.reader t
  pc : r.poll.pc t = s.poll.pc t
  obj : r.poll.obj t = s.poll.obj t
  expired : r.poll.expired t = s.poll.expired t
  pending : r.poll.pending t = s.poll.pending t
  polling : r.poll.polling t = s.poll.polling t
  signalled : r.poll.signalled t = s.poll.signalled t
  ret : r.poll.ret t = s.poll.ret t
  woken : t ∈ r.woken → t ∈ s.woken

variable {r : PollQueue T A} {met : Unit → Bool}

theorem Unmoved.waiting_iff (h : Unmoved t r s) : Waiting r t ↔ Waiting s t := by
  rw [Waiting, Waiting, h.pc, h.signalled]

theorem ReaderOk.unmoved (hs : ReaderOk s t) (h : Unmoved t r s) : ReaderOk r t := by
  refine ⟨?_, ?_, ?_, ?_, ?_, ?_, ?_, ?_, ?_, ?_⟩
  · exact h.pc ▸ hs.scan
  · exact h.pc ▸ hs.pended
  · exact h.pc ▸ hs.clear
  · rw [h.reader, h.pc]
    exact hs.reader
  · rw [h.reader, h.obj]
    exact hs.obj
  · rw [h.expired]
    exact hs.expired
  · rw [h.pending, h.waiting_iff, h.pc]
    exact hs.pending
  · rw [h.polling, h.pc, h.signalled]
    exact hs.polling
  · rw [Poll.Woken, h.pc, h.pending, h.ret]
    exact hs.ret
  · intro hw
    rw [h.waiting_iff, h.reader, h.pending, h.polling]
    exact hs.woken (h.woken hw)

theorem Readers.move (h : Readers s) (t : T) (hpoll : ∃ lists, Poll.Inv lists r.poll)
    (hother : ∀ x, x ≠ t → Unmoved x r s) (ht : ReaderOk r t) (hnd : r.woken.Nodup) :
    Readers r := by
  refine ⟨hpoll, fun x => ?_, hnd⟩
  by_cases hx : x = t
  · subst hx
    exact ht
  · exact (h.ok x).unmoved (hother x hx)

theorem Readers.same (h : Readers s) {dataQ : Slist A} {lent : A → Bool} :
    Readers { s with poll := { s.poll with met }, dataQ, lent } := by
  obtain ⟨lists, hi⟩ := h.poll
  exact ⟨⟨lists, { hi with calls := { hi.calls with } }⟩, fun t => { h.ok t with }, h.nodup⟩

theorem Readers.not_woken (h : Readers s) (hi : s.reader t = .idle ∨ s.reader t = .called) :
    t ∉ s.woken := by
  intro hw
  rcases ((h.ok t).woken hw).2 with hr | ⟨hr, -⟩ <;> simp [hr] at hi

theorem Readers.event_free (h : Readers s) (ht : s.poll.pc t = .idle) (x : T) :
    t ∉ (s.poll.pc x).events := by
  intro hm
  obtain rfl := h.own hm
  simp [ht, Poll.Pc.events] at hm

section

variable [DecidableEq A]

theorem takeData_nil (h : s.dataQ.IsList []) : takeData s = (none, s) := by
  rw [takeData, sysSlistGet_nil h]

theorem takeData_cons {a : A} {xs : List A} (h : s.dataQ.IsList (a :: xs))
    (hl : ∀ x ∈ a :: xs, s.lent x = true) :
    ∃ dataQ lent met, takeData s = (some a, { s with dataQ, lent, poll := { s.poll with met } }) ∧
      dataQ.IsList xs ∧ (∀ x ∈ xs, lent x = true) ∧ (met () = true ↔ xs ≠ []) := by
  obtain ⟨h1, h2, -⟩ := sysSlistGet_cons h
  obtain ⟨d, _, hget⟩ : ∃ d q, sysSlistGet s.dataQ = (d, q) := ⟨_, _, rfl⟩
  rw [hget] at h1 h2
  obtain rfl : d = some a := h1
  rw [takeData, hget]
  refine ⟨_, _, _, rfl, h2, ?_, ?_⟩
  · intro x hx
    have hxa := ne_of_mem_of_not_mem hx h.nodup.notMem
    simp only [update_of_ne hxa]
    exact hl x (mem_cons_of_mem a hx)
  · simp [← sysSlistIsEmpty_iff h2]

theorem Inv.write (h : Inv contents s) {a : A} {next : Option A} (ha : s.lent a = false) :
    Inv contents { s with dataQ := { s.dataQ with next := update s.dataQ.next a next } } := by
  have hn : a ∉ contents := fun hm => by simp [h.lent a hm] at ha
  exact ⟨h.readers.same, h.data.frame (update_off hn), h.lent, h.met, h.enough⟩

variable [DecidableEq T]

theorem handleObjPollEvents_head {p : Poll.State T Unit T}
    {v : List T} (state : BitVec 32) (hi : Poll.Inv lists p) (hx : lists () = e :: v)
    (hp : p.poller e = some e) (he : p.expired e = false) (hst : state ≠ Poll.stateNotReady) :
    ∃ links poller eventState ret, Poll.handleObjPollEvents p () state = { p with
        links, poller, eventState, ret
        signalled := update p.signalled e true
        polling := update p.polling e false
        pending := update p.pending e false } ∧
      ∀ x, ret x = if x = e ∧ p.pending e = true then 0 else p.ret x := by
  have hring := hi.rings.ring () (Set.mem_univ ())
  rw [Poll.nodesOf, hx] at hring
  rw [Poll.handleObjPollEvents, sysDlistGet_cons hring]
  simp only [Poll.signalPollEvent, hp, he, hst]
  by_cases hpe : p.pending e = false
  · have hsame : update p.pending e false = p.pending := by
      rw [← hpe, update_eq_self]
    rw [if_pos hpe]
    simp only [hsame]
    exact ⟨_, _, _, p.ret, rfl, fun x => by simp [hpe]⟩
  · rw [if_neg hpe]
    refine ⟨_, _, _, update p.ret e 0, rfl, ?_⟩
    intro x
    by_cases hxe : x = e
    · simp [hxe, Bool.not_eq_false _ ▸ hpe]
    · simp [hxe]

omit [DecidableEq A] in
theorem Readers.signalled (h : Readers s) {links poller eventState ret} (hwe : Waiting s e)
    (hr : r = { s with
      woken := e :: s.woken
      poll := { s.poll with
        links, poller, eventState, ret, met
        signalled := update s.poll.signalled e true
        polling := update s.poll.polling e false
        pending := update s.poll.pending e false } })
    (hpoll : ∃ lists, Poll.Inv lists r.poll)
    (hret : ∀ x, ret x = if x = e ∧ s.poll.pending e = true then 0 else s.poll.ret x) :
    Readers r ∧ ∀ x, Waiting r x → x ≠ e ∧ Waiting s x := by
  subst hr
  have hwr : ∀ x, x ∈ (s.poll.pc x).registered ∧ update s.poll.signalled e true x = false →
      x ≠ e ∧ Waiting s x := by
    rintro x ⟨h1, h2⟩
    have hxe : x ≠ e := by
      rintro rfl
      simp at h2
    rw [update_of_ne hxe] at h2
    exact ⟨hxe, h1, h2⟩
  have hok := h.ok e
  refine ⟨h.move e hpoll ?_ { hok with pending := ?_, polling := ?_, ret := ?_, woken := ?_ } ?_, hwr⟩
  · intro x hxe
    exact ⟨rfl, rfl, rfl, rfl, update_of_ne hxe .., update_of_ne hxe .., update_of_ne hxe ..,
      by simp [hret, hxe], fun hx => (mem_cons.mp hx).resolve_left hxe⟩
  · simp
  · simp
  · intro hx
    refine (hret e).trans ?_
    split_ifs with hp
    · rfl
    · refine hok.ret ?_
      rcases hx with ⟨events, n, h1, -⟩ | hx
      · exact .inl ⟨events, n, h1, by simpa using hp⟩
      · exact .inr hx
  · exact fun _ => ⟨fun hw => (hwr e hw).1 rfl, .inr ⟨h.polling_of_waiting hwe, by simp, by simp⟩⟩
  · exact nodup_cons.mpr ⟨fun hm => (hok.woken hm).1 hwe, h.nodup⟩

omit [DecidableEq A] in
theorem Readers.handlePollEvents (h : Readers s) (hd : s.dataQ.IsList contents)
    (hl : ∀ a ∈ contents, s.lent a = true)
    (hb : ∀ x y, x ≠ y → Waiting s x → Waiting s y → contents.length ≤ s.woken.length + 1) :
    Inv contents (handlePollEvents s) := by
  obtain ⟨lists, hi⟩ := h.poll
  let p := { s.poll with met := fun _ => !sysSlistIsEmpty s.dataQ }
  have hp : Poll.Inv lists p :=
    { hi with calls := { hi.calls with } }
  have hmet : (!sysSlistIsEmpty s.dataQ) = true ↔ contents ≠ [] := by
    simp [← sysSlistIsEmpty_iff hd]
  have hring := hi.rings.ring () (Set.mem_univ ())
  unfold KQueuePoll.handlePollEvents
  rw [sysDlistPeekHead_ring hring]
  cases hx : lists () with
  | nil =>
    have hno : ∀ x, ¬ Waiting s x := fun x hw => by
      simpa [hx] using (h.waiting_iff hi x).mpr hw
    have he : Poll.handleObjPollEvents p () Poll.Kind.queue.state = p := by
      rw [Poll.nodesOf, hx] at hring
      rw [Poll.handleObjPollEvents, show p.links = s.poll.links from rfl, sysDlistGet_nil hring]
    change Inv contents { s with
      poll := Poll.handleObjPollEvents p () Poll.Kind.queue.state, woken := _ }
    rw [he]
    simp only [Poll.nodesOf, hx, map_nil, head?_nil]
    refine ⟨h.same, hd, hl, hmet, ?_⟩
    rintro ⟨x, hw⟩
    exact absurd hw (hno x)
  | cons e v =>
    have hwe : Waiting s e := (h.waiting_iff hi e).mp (by simp [hx])
    obtain ⟨_, _, _, _, heq, hret⟩ := handleObjPollEvents_head
      Poll.Kind.queue.state hp hx (hi.poller e e hwe.1 hwe.2) (h.ok e).expired (by decide)
    have hpi := hp.signal () Poll.Kind.queue.state
    change Inv contents { s with
      poll := Poll.handleObjPollEvents p () Poll.Kind.queue.state, woken := _ }
    rw [heq] at hpi ⊢
    simp only [Poll.nodesOf, hx, map_cons, head?_cons]
    obtain ⟨hr, hw⟩ := h.signalled hwe rfl hpi hret
    refine ⟨hr, hd, hl, hmet, ?_⟩
    rintro ⟨x, hx⟩
    obtain ⟨hxe, hx⟩ := hw x hx
    exact hb x e hxe hx hwe

theorem Inv.insert (h : Inv contents s) {prev : Option A} {data : A} (hd : s.lent data = false) :
    ∃ contents', Inv contents' (kQueueInsert s prev data) := by
  have hn : data ∉ contents := fun hm => by simp [h.lent data hm] at hd
  obtain ⟨ys, hys, hlen, hsub⟩ := sysSlistInsert_cases h.data hn prev
  refine ⟨ys, h.readers.same.handlePollEvents hys ?_ ?_⟩
  · intro a ha
    by_cases had : a = data
    · simp [had]
    · simp only [update_of_ne had]
      exact h.lent a ((mem_cons.mp (hsub ha)).resolve_left had)
  · intro x _ _ hx _
    exact hlen.trans (Nat.add_le_add_right (h.enough ⟨x, hx⟩) 1)

theorem Inv.appendList (h : Inv contents s) {items : List A} {head tail : A}
    (ha : Allowed s (.appendList items : Act T A)) (hw : WakesEnough s (.appendList items : Act T A))
    (hhead : items.head? = some head) (htail : items.getLast? = some tail) :
    ∃ contents', Inv contents' (kQueueAppendList s items head tail) := by
  obtain ⟨hnd, hlent, hlinked⟩ := ha
  have hdis : contents.Disjoint items := by
    intro a hc hi
    simpa [h.lent a hc] using hlent a hi
  rw [linked_iff, hhead] at hlinked
  refine ⟨contents ++ items, h.readers.same.handlePollEvents
    (sysSlistAppendList_isList h.data hlinked htail (h.data.nodup.append hnd hdis)) ?_ ?_⟩
  · intro a ha
    dsimp only
    split_ifs with hi
    · rfl
    · exact h.lent a ((mem_append.mp ha).resolve_right hi)
  · intro x y hxy hx hy
    have hle := h.enough ⟨x, hx⟩
    rcases hw with hw | hw
    · rw [length_append]
      exact Nat.add_le_add hle hw
    · obtain ⟨lists, hi⟩ := h.readers.poll
      have hmem : ∀ z, Waiting s z → Poll.Node.event z ∈ Poll.nodesOf lists () := fun z hz =>
        mem_map_of_mem ((h.readers.waiting_iff hi z).mpr hz)
      have := (hi.rings.ring () (Set.mem_univ ())).eq_of_next_eq_prev hw (hmem x hx) (hmem y hy)
      exact absurd (by simpa using this) hxy

omit [DecidableEq A] in
theorem Readers.setReader (h : Readers s) {v : Reader} {obj poller eventState woken}
    {dataQ : Slist A} {lent : A → Bool}
    (hs : s.reader t ≠ .polling) (hv : v ≠ .polling)
    (hinv : ∃ lists, Poll.Inv lists { s.poll with obj, poller, eventState, met })
    (hobj : v ≠ .idle → obj t = some ()) (hother : ∀ x, x ≠ t → obj x = s.poll.obj x)
    (hnd : woken.Nodup) (hwoken : ∀ x ∈ woken, x ∈ s.woken ∧ x ≠ t) : Readers { s with
      poll := { s.poll with obj, poller, eventState, met }
      reader := update s.reader t v, dataQ, lent, woken } := by
  have hpc := (h.ok t).pc_idle hs
  have hpend := (h.ok t).not_pending (by simp [hpc])
  refine h.move t hinv ?_ ?_ hnd
  · intro x hx
    exact ⟨update_of_ne hx .., rfl, hother x hx, rfl, rfl, rfl, rfl, rfl, fun hw => (hwoken x hw).1⟩
  · refine ⟨?_, ?_, ?_, ?_, ?_, ?_, ?_, ?_, ?_, fun hw => absurd rfl (hwoken t hw).2⟩
    all_goals simp only [update_self, hpc, Poll.Woken, Poll.Pc.registered]
    · simp
    · simp
    · simp
    · simp [hv]
    · exact hobj
    · exact (h.ok t).expired
    · simp [hpend]
    · simp
    · simp

theorem Inv.get (h : Inv contents s) (ht : s.reader t = .idle) :
    ∃ contents', Inv contents' (kQueueGet s t) := by
  have hnp : s.reader t ≠ .polling := by simp [ht]
  cases contents with
  | nil =>
    obtain ⟨lists, hi⟩ := h.readers.poll
    simp only [kQueueGet, takeData_nil h.data]
    refine ⟨[], ?_, h.data, h.lent, h.met, fun _ => Nat.zero_le _⟩
    refine h.readers.setReader hnp (by simp)
      ⟨lists, hi.initEvent (h.readers.event_free ((h.readers.ok t).pc_idle hnp))⟩ ?_ ?_
      h.readers.nodup ?_
    · simp
    · exact fun x hx => update_of_ne hx _ _
    · exact fun x hx => ⟨hx, ne_of_mem_of_not_mem hx (h.readers.not_woken (.inl ht))⟩
  | cons a xs =>
    obtain ⟨_, _, _, hr, hdata, hlent, hmet⟩ := takeData_cons h.data h.lent
    simp only [kQueueGet, hr]
    exact ⟨xs, h.readers.same, hdata, hlent, hmet, fun hx => Nat.le_of_succ_le (h.enough hx)⟩

theorem Inv.retry (h : Inv contents s) (ht : s.reader t = .retry) :
    ∃ contents', Inv contents' (retryGet s t) := by
  have hnp : s.reader t ≠ .polling := by simp [ht]
  have hobj : s.poll.obj t = some () := (h.readers.ok t).obj (by simp [ht])
  have hnd := h.readers.nodup
  have hw : ∀ x ∈ s.woken.erase t, x ∈ s.woken ∧ x ≠ t := fun x hx =>
    ⟨mem_of_mem_erase hx, ne_of_mem_of_not_mem hx hnd.not_mem_erase⟩
  obtain ⟨lists, hi⟩ := h.readers.poll
  cases contents with
  | nil =>
    simp only [retryGet, takeData_nil (s := { s with woken := s.woken.erase t }) h.data]
    refine ⟨[], ?_, h.data, h.lent, h.met, fun _ => Nat.zero_le _⟩
    exact h.readers.setReader hnp (by simp) ⟨lists, hi⟩
      (fun _ => hobj) (fun _ _ => rfl) (hnd.erase t) hw
  | cons a xs =>
    obtain ⟨_, _, _, hr, hdata, hlent, hmet⟩ :=
      takeData_cons (s := { s with woken := s.woken.erase t }) h.data h.lent
    simp only [retryGet, hr]
    refine ⟨xs, ?_, hdata, hlent, hmet, fun hx => ?_⟩
    · exact h.readers.setReader hnp (by simp) ⟨lists, { hi with calls := { hi.calls with } }⟩
        (fun hf => absurd rfl hf) (fun _ _ => rfl) (hnd.erase t) hw
    · have := h.enough hx
      simp only [length_erase, length_cons] at this ⊢
      split_ifs <;> omega

end

open Option

variable {prio : T → Int} {part : Part}

theorem Readers.clearing (h : Readers s) {x : T} {xs : List T}
    (hc : Poll.clearing s.poll (part.act t) = some (x, xs)) : x = t ∧ s.poll.pending t = false := by
  cases part with
  | scan => simp [Part.act, Poll.clearing] at hc
  | decide =>
    cases hpc : s.poll.pc t with
    | scan events ii n noWait =>
      simp only [Part.act, Poll.clearing, hpc] at hc
      split_ifs at hc
      exact ⟨by simpa using (congrArg Prod.fst (some.inj hc)).symm,
        (h.ok t).not_pending (by simp [hpc])⟩
    | _ => simp [Part.act, Poll.clearing, hpc] at hc
  | wake =>
    cases hpc : s.poll.pc t with
    | pended events n =>
      simp only [Part.act, Poll.clearing, hpc] at hc
      split_ifs at hc with hp
      exact ⟨by simpa using (congrArg Prod.fst (some.inj hc)).symm, hp⟩
    | _ => simp [Part.act, Poll.clearing, hpc] at hc
  | clear =>
    cases hpc : s.poll.pc t with
    | clear left =>
      simp only [Part.act, Poll.clearing, hpc] at hc
      exact ⟨by simpa using (congrArg Prod.fst (some.inj hc)).symm,
        (h.ok t).not_pending (by simp [hpc])⟩
    | _ => simp [Part.act, Poll.clearing, hpc] at hc

theorem Inv.init (links : Links (Poll.Node Unit T)) (next : A → Option A) :
    Inv (T := T) [] (initQueue links next) := by
  refine ⟨⟨⟨_, Poll.Inv.init links _ _⟩, fun t => ?_, .nil⟩, sysSlistInit_isList _, by simp, ?_, ?_⟩
  · refine ⟨?_, ?_, ?_, ?_, ?_, rfl, ?_, ?_, fun _ => rfl, ?_⟩
    all_goals simp [initQueue, Poll.initState]
  · simp [initQueue, Poll.initState]
  · exact fun _ => Nat.zero_le _

variable [DecidableEq T] {p : Poll.State T Unit T}

section

variable (h : Inv contents s)
include h

theorem Inv.movePoll {v : Reader}
    (hpoll : ∃ lists, Poll.Inv lists p) (hpc : ∀ x, x ≠ t → p.pc x = s.poll.pc x)
    (hobj : p.obj = s.poll.obj) (hexp : p.expired = s.poll.expired) (hmet : p.met = s.poll.met)
    (hpend : ∀ x, x ≠ t → p.pending x = s.poll.pending x)
    (hpolling : ∀ x, x ≠ t → p.polling x = s.poll.polling x)
    (hsig : ∀ x, x ≠ t → p.signalled x = s.poll.signalled x)
    (hret : ∀ x, x ≠ t → p.ret x = s.poll.ret x)
    (hr : r = { s with poll := p, reader := update s.reader t v }) (ht : ReaderOk r t)
    (hw : Waiting r t → Waiting s t ∨ contents = []) : Inv contents r := by
  have hother : ∀ x, x ≠ t → Unmoved x r s := by
    intro x hx
    rw [hr]
    exact ⟨update_of_ne hx _ _, hpc x hx, congrFun hobj x, congrFun hexp x, hpend x hx,
      hpolling x hx, hsig x hx, hret x hx, id⟩
  subst hr
  refine ⟨h.readers.move t hpoll hother ht h.readers.nodup, h.data, h.lent, ?_, ?_⟩
  · rw [← h.met, ← hmet]
  · rintro ⟨x, hx⟩
    by_cases hxt : x = t
    · subst hxt
      rcases hw hx with hs | rfl
      · exact h.enough ⟨x, hs⟩
      · exact Nat.zero_le _
    · exact h.enough ⟨x, (hother x hxt).waiting_iff.mp hx⟩

theorem Inv.call [DecidableEq A] (hs : step prio s (.call t : Act T A) = some r) :
    Inv contents r := by
  simp only [step] at hs
  split_ifs at hs with ht
  obtain ⟨p, hp, hs⟩ := bind_eq_some_iff.mp hs
  obtain ⟨lists, hi⟩ := h.readers.poll
  have hok := h.readers.ok t
  have hpc := hok.pc_idle (by simp [ht])
  have hpend := hok.not_pending (by simp [hpc])
  have hi' : Poll.Inv lists
      { s.poll with eventState := update s.poll.eventState t Poll.stateNotReady } :=
    { hi with calls := { hi.calls with } }
  have hfree : ∀ x, ∀ e ∈ [t], e ∉ (s.poll.pc x).events := by
    intro x e he
    rw [mem_singleton.mp he]
    exact h.readers.event_free hpc x
  have hpoll := hi'.step (a := .poll t [t] false) ⟨hpc, cons_ne_nil _ _, nodup_singleton t, hfree⟩
    (by simp [Poll.ClearsInPlace, Poll.clears, Poll.clearing]) hp
  cases hp
  cases hs
  refine h.movePoll hpoll ?_ rfl rfl rfl (fun _ _ => rfl) ?_ (fun _ _ => rfl) (fun _ _ => rfl)
    rfl ?_ ?_
  · exact fun x hx => update_of_ne hx _ _
  · exact fun x hx => update_of_ne hx _ _
  · refine ⟨?_, ?_, ?_, ?_, fun _ => hok.obj (by simp [ht]), hok.expired, ?_, ?_, ?_, ?_⟩
    all_goals simp [Poll.Woken, Poll.Pc.registered, hpend]
    exact h.readers.not_woken (.inr ht)
  · simp [Waiting, Poll.Pc.registered]

theorem Inv.clearPart {x : T} {xs : List T} (ht : s.reader t = .polling)
    (hc : Poll.clearing s.poll (part.act t) = some (x, xs))
    (hp : Poll.step (fun _ => .queue) prio s.poll (part.act t) = some p)
    (hpoll : ∃ lists, Poll.Inv lists p) (hs : pollPart prio s t part = some r) :
    Inv contents r := by
  obtain ⟨_, hi⟩ := h.readers.poll
  have hok := h.readers.ok t
  obtain ⟨rfl, hpend⟩ := h.readers.clearing hc
  obtain ⟨-, hreg, ret, rfl, hret⟩ := Poll.clearing_spec hi hc hp
  have hzero : ret x = 0 := by
    rcases hret with rfl | ⟨rfl, hw⟩
    · simp
    · exact hok.ret hw
  have hother : ∀ y, y ≠ x → ret y = s.poll.ret y := by
    intro y hy
    rcases hret with rfl | ⟨rfl, -⟩
    · exact update_of_ne hy _ _
    · rfl
  simp only [pollPart, hp] at hs
  cases xs with
  | nil =>
    cases hs
    refine h.movePoll hpoll (fun y hy => update_of_ne hy _ _) rfl rfl rfl (fun _ _ => rfl)
      (fun _ _ => rfl) (fun _ _ => rfl) hother rfl ?_ ?_
    · refine ⟨?_, ?_, ?_, ?_, fun _ => hok.obj (by simp [ht]), hok.expired, ?_, ?_, ?_, ?_⟩
      all_goals simp [Poll.clearNext, Poll.Pc.registered, Waiting, hpend, hzero]
    · simp [Poll.clearNext, Waiting, Poll.Pc.registered]
  | cons e left =>
    have hleft : ∀ y ∈ left, y ∈ (s.poll.pc x).registered := fun y hy =>
      (hreg y).mpr (mem_cons_of_mem e hy)
    have hsub : left ⊆ [x] := fun y hy =>
      mem_singleton.mpr (h.readers.own (Poll.Pc.registered_subset _ (hleft y hy)))
    have hobj := hok.obj (by simp [ht])
    obtain rfl : e = x := h.readers.own (Poll.Pc.registered_subset _ ((hreg e).mpr (by simp)))
    have hcn : Poll.clearNext { s.poll with ret } e (e :: left) = { s.poll with
        ret
        poller := update s.poll.poller e none
        links := sysDlistRemove s.poll.links (.event e)
        pc := update s.poll.pc e (.clear left) } := by
      simp [Poll.clearNext, Poll.clearEventRegistration, hobj]
    rw [hcn] at hpoll hs
    have hwait : e ∈ left → s.poll.signalled e = false → Waiting s e := fun hl hsig =>
      ⟨hleft e hl, hsig⟩
    cases hs
    refine h.movePoll hpoll (fun y hy => update_of_ne hy _ _) rfl rfl rfl (fun _ _ => rfl)
      (fun _ _ => rfl) (fun _ _ => rfl) hother rfl ?_ ?_
    · refine ⟨?_, ?_, ?_, ?_, fun _ => hobj, hok.expired, ?_, ?_, ?_, ?_⟩
      all_goals simp only [update_self, Waiting, hpend, hzero]
      · simp
      · simp
      · rintro _ ⟨⟩
        exact hsub
      · simp
      · simp
      · exact fun hpo hl => hok.polling hpo (hleft e hl)
      · simp
      · intro hw
        obtain ⟨hnot, hor⟩ := hok.woken hw
        refine ⟨fun hf => hnot (hwait hf.1 hf.2), .inr ⟨trivial, trivial, ?_⟩⟩
        rcases hor with hf | ⟨-, -, hf⟩
        · simp [ht] at hf
        · exact hf
    · simp only [Waiting, update_self]
      exact fun hf => .inl (hwait hf.1 hf.2)

theorem Inv.scanned {noWait : Bool} {poller eventState polling}
    (ht : s.reader t = .polling) (hpc : s.poll.pc t = .scan [t] 0 0 noWait)
    (hp : p = { s.poll with
      poller, eventState, polling, pc := update s.poll.pc t (.scan [t] 1 0 false) })
    (hpoll : ∃ lists, Poll.Inv lists p) (hpolling : ∀ x, x ≠ t → polling x = s.poll.polling x)
    (hself : s.poll.polling t = false → polling t = false) :
    Inv contents { s with poll := p, reader := update s.reader t .polling } := by
  subst hp
  have hok := h.readers.ok t
  have hnp := hok.not_pending (by simp [hpc])
  refine h.movePoll hpoll (fun x hx => update_of_ne hx _ _) rfl rfl rfl (fun _ _ => rfl) hpolling
    (fun _ _ => rfl) (fun _ _ => rfl) rfl ?_ ?_
  · refine ⟨?_, ?_, ?_, ?_, ?_, ?_, ?_, ?_, ?_, ?_⟩
    all_goals simp only [update_self, Poll.Woken, Waiting, Poll.Pc.registered, hnp]
    · rintro _ _ _ _ ⟨⟩
      exact ⟨rfl, rfl⟩
    · simp
    · simp
    · simp
    · exact fun _ => hok.obj (by simp [ht])
    · exact hok.expired
    · simp
    · simp
    · simp
    · intro hw
      rcases (hok.woken hw).2 with hf | ⟨-, -, hf⟩
      · simp [ht] at hf
      · exact ⟨by simp, .inr ⟨trivial, trivial, hself hf⟩⟩
  · simp [Waiting, Poll.Pc.registered]

theorem Inv.scanPart (ht : s.reader t = .polling)
    (hp : Poll.step (fun _ => .queue) prio s.poll (.scan t) = some p)
    (hpoll : ∃ lists, Poll.Inv lists p) (hs : pollPart prio s t .scan = some r) :
    Inv contents r := by
  obtain ⟨_, hi⟩ := h.readers.poll
  have hok := h.readers.ok t
  have hobj := hok.obj (by simp [ht])
  cases hpc : s.poll.pc t with
  | scan events ii n noWait =>
    obtain ⟨rfl, rfl⟩ := hok.scan events ii n noWait hpc
    have hstep := hp
    simp only [Poll.step, hpc] at hstep
    obtain ⟨e, he, hstep⟩ := bind_eq_some_iff.mp hstep
    obtain ⟨rfl, rfl⟩ : ii = 0 ∧ t = e := by
      cases ii with
      | zero => simpa using he
      | succ ii => simp at he
    obtain rfl : n = 0 := Nat.le_zero.mp (hi.calls.scan t [t] 0 n false hpc).1
    simp only [pollPart, Part.act, hp] at hs
    unfold Poll.scanEvent at hstep
    cases hmet : Poll.isConditionMet (fun _ => .queue) s.poll t with
    | some state =>
      simp only [hmet] at hstep
      cases hstep
      cases hs
      simp only [update_self]
      refine h.scanned ht hpc rfl hpoll ?_ ?_
      · exact fun x hx => update_of_ne hx _ _
      · exact fun _ => update_self _ _ _
    | none =>
      simp only [hmet] at hstep
      by_cases hpo : s.poll.polling t = true
      · simp only [hpo] at hstep
        have hfree := hi.not_listed (hi.calls.not_registered hpc he)
        obtain ⟨_, _, hreg, -⟩ := hi.registerEvent prio t hfree
        rw [hreg] at hstep
        cases hstep
        cases hs
        have hempty : contents = [] := by
          by_contra hf
          simp [Poll.isConditionMet, hobj, h.met.mpr hf] at hmet
        have hnp := hok.not_pending (by simp [hpc])
        refine h.movePoll (v := .polling) hpoll (fun x hx => update_of_ne hx _ _) rfl rfl
          rfl (fun _ _ => rfl) (fun _ _ => rfl) (fun x hx => update_of_ne hx _ _)
          (fun _ _ => rfl) ?_ ?_ (fun _ => .inr hempty)
        · simp
        · refine ⟨?_, ?_, ?_, ?_, fun _ => hobj, hok.expired, ?_, ?_, ?_, ?_⟩
          all_goals simp only [update_self, Poll.Woken, hnp]
          · rintro _ _ _ _ ⟨⟩
            exact ⟨rfl, rfl⟩
          · simp
          · simp
          · simp
          · simp
          · simp
          · simp
          · intro hw
            rcases (hok.woken hw).2 with hf | ⟨-, -, hf⟩
            · simp [ht] at hf
            · simp [hpo] at hf
      · rw [if_neg (by simp [hpo])] at hstep
        cases hstep
        cases hs
        simp only [update_self]
        exact h.scanned ht hpc rfl hpoll (fun _ _ => rfl) id
  | _ => simp [Poll.step, hpc] at hp

theorem Inv.decidePart (ht : s.reader t = .polling) (hc : Poll.clearing s.poll (.decide t) = none)
    (hp : Poll.step (fun _ => .queue) prio s.poll (.decide t) = some p)
    (hpoll : ∃ lists, Poll.Inv lists p) (hs : pollPart prio s t .decide = some r) :
    Inv contents r := by
  obtain ⟨_, hi⟩ := h.readers.poll
  have hok := h.readers.ok t
  cases hpc : s.poll.pc t with
  | scan events ii n noWait =>
    obtain ⟨rfl, rfl⟩ := hok.scan events ii n noWait hpc
    have hstep := hp
    simp only [Poll.step, hpc, Poll.clearing] at hstep hc
    split_ifs at hstep with hii
    have hpo : s.poll.polling t = true := by
      by_contra hf
      simp [hii, hf] at hc
    obtain rfl : n = 1 := ((hi.calls.scan t [t] ii n false hpc).2.2.2 rfl hpo).trans hii
    have hreg : t ∈ (s.poll.pc t).registered := by simp [hpc, Poll.Pc.registered]
    have hsig := hok.polling hpo hreg
    rw [Poll.decidePend, if_neg (by simp [hpo])] at hstep
    simp only [Bool.false_eq_true, if_false] at hstep
    simp only [pollPart, Part.act, hp] at hs
    cases hstep
    cases hs
    refine h.movePoll (v := .polling) hpoll (fun x hx => update_of_ne hx _ _) rfl rfl
      rfl (fun x hx => update_of_ne hx _ _) (fun x hx => update_of_ne hx _ _)
      (fun _ _ => rfl) (fun x hx => update_of_ne hx _ _) ?_ ?_ fun _ => .inl ⟨hreg, hsig⟩
    · simp
    · refine ⟨?_, ?_, ?_, ?_, fun _ => hok.obj (by simp [ht]), hok.expired, ?_, ?_, ?_, ?_⟩
      all_goals simp only [update_self, Poll.Woken, Waiting, hsig]
      · simp
      · rintro _ _ ⟨⟩
        rfl
      · simp
      · simp
      · simp [Poll.Pc.registered]
      · simp
      · simp
      · intro hw
        rcases (hok.woken hw).2 with hf | ⟨-, -, hf⟩
        · simp [ht] at hf
        · simp [hpo] at hf
  | _ => simp [Poll.step, hpc] at hp

theorem Inv.poll [DecidableEq A] (hok : WakesEnough s (.poll t part : Act T A))
    (hs : step prio s (.poll t part) = some r) : Inv contents r := by
  simp only [step] at hs
  split_ifs at hs with ht
  obtain ⟨p, hp, -⟩ := bind_eq_some_iff.mp hs
  obtain ⟨lists, hi⟩ := h.readers.poll
  have hpoll : ∃ lists, Poll.Inv lists p := hi.step (by cases part <;> trivial) hok hp
  cases hc : Poll.clearing s.poll (part.act t) with
  | some tx => exact h.clearPart ht hc hp hpoll hs
  | none =>
    cases part with
    | scan => exact h.scanPart ht hp hpoll hs
    | decide => exact h.decidePart ht hc hp hpoll hs
    | wake =>
      cases hpc : s.poll.pc t with
      | pended events n =>
        simp only [Poll.step, Part.act, hpc, Poll.clearing] at hp hc
        split_ifs at hp hc
      | _ => simp [Poll.step, Part.act, hpc] at hp
    | clear =>
      cases hpc : s.poll.pc t with
      | clear left => simp [Poll.clearing, Part.act, hpc] at hc
      | _ => simp [Poll.step, Part.act, hpc] at hp

theorem Inv.step [DecidableEq A] {a : Act T A} (ha : Allowed s a)
    (hok : WakesEnough s a) (hs : step prio s a = some r) : ∃ contents', Inv contents' r := by
  cases a with
  | insert prev data =>
    cases hs
    exact h.insert ha
  | appendList items =>
    simp only [KQueuePoll.step] at hs
    split at hs
    · next head tail hhead htail =>
      cases hs
      exact h.appendList ha hok hhead htail
    · cases hs
  | get t =>
    simp only [KQueuePoll.step] at hs
    split_ifs at hs with ht
    cases hs
    exact h.get ht
  | call t => exact ⟨contents, h.call hs⟩
  | poll t part => exact ⟨contents, h.poll hok hs⟩
  | retry t =>
    simp only [KQueuePoll.step] at hs
    split_ifs at hs with ht
    cases hs
    exact h.retry ht
  | write a next =>
    cases hs
    exact ⟨contents, h.write ha⟩

omit [DecidableEq T] in
theorem Inv.exists_woken (ht : s.poll.pending t = true) (hd : sysSlistIsEmpty s.dataQ = false) :
    ∃ x, s.reader x = .retry ∨ s.reader x = .polling ∧ s.poll.pending x = false := by
  have hle := h.enough ⟨t, ((h.readers.ok t).pending ht).1⟩
  have hne : contents ≠ [] := fun hf => by simp [(sysSlistIsEmpty_iff h.data).mpr hf] at hd
  obtain ⟨x, _, hw⟩ := exists_cons_of_length_pos ((length_pos_iff.mpr hne).trans_le hle)
  refine ⟨x, ?_⟩
  rcases ((h.readers.ok x).woken (hw ▸ mem_cons_self)).2 with hr | ⟨hr, hp, -⟩
  · exact .inl hr
  · exact .inr ⟨hr, hp⟩

end

/-- In every run in which a list of several items is appended only while at most one reader is
registered, and in which no reader that clears its registration drops another's, a reader blocked
while there is data is matched by one that has been woken. So none is stranded when all have run. -/
theorem poll_readers_not_stranded [DecidableEq A] (links : Links (Poll.Node Unit T))
    (next : A → Option A)
    (h : GuardedRun (KQueuePoll.step prio) (fun s a => Allowed s a ∧ WakesEnough s a)
      (initQueue links next) s) :
    (∀ t, s.poll.pending t = true → sysSlistIsEmpty s.dataQ = false →
      ∃ x, s.reader x = .retry ∨ s.reader x = .polling ∧ s.poll.pending x = false) ∧
    (Quiescent s → ∀ t, s.poll.pending t = true → sysSlistIsEmpty s.dataQ = true) := by
  obtain ⟨contents, hi⟩ : ∃ contents, Inv contents s := by
    refine h.invariant (P := fun s => ∃ contents, Inv contents s) ?_ ⟨[], Inv.init links next⟩
    rintro s a _ ⟨contents, hi⟩ ⟨ha, hok⟩ hs
    exact hi.step ha hok hs
  refine ⟨fun t ht hd => hi.exists_woken ht hd, fun hq t ht => ?_⟩
  by_contra hd
  obtain ⟨x, hx⟩ := hi.exists_woken ht (by simpa using hd)
  rcases hq x with hr | ⟨hr, hp⟩ <;> simp_all

/-- Two readers block and a list of two items is appended: one reader is woken and takes an item,
the other stays blocked beside the second item. The same happens without lists when reader 0,
already woken, clears its registration after reader 1 has registered. -/
theorem blocked_reader_left_with_data : ∃ s₁ s₂ : PollQueue (Fin 2) Nat,
      [Act.get 0, .call 0, .poll 0 .scan, .poll 0 .decide, .get 1, .call 1, .poll 1 .scan,
        .poll 1 .decide, .write 10 (some 20), .appendList [10, 20], .poll 0 .wake, .poll 0 .clear,
        .retry 0].foldlM (fun s a => if Allowed s a then KQueuePoll.step (fun _ => 0) s a else none)
          (initQueue ⟨id, id⟩ fun _ => none) = some s₁ ∧
      Quiescent s₁ ∧ s₁.poll.pending 1 = true ∧ s₁.dataQ.head = some 20 ∧
      [Act.get 0, .call 0, .poll 0 .scan, .poll 0 .decide, .insert none 10, .get 1, .get 1, .call 1,
        .poll 1 .scan, .poll 1 .decide, .poll 0 .wake, .poll 0 .clear, .retry 0, .call 0,
        .poll 0 .scan, .poll 0 .decide, .insert none 10, .insert none 20, .poll 0 .wake,
        .poll 0 .clear, .retry 0].foldlM
          (fun s a => if Allowed s a then KQueuePoll.step (fun _ => 0) s a else none)
          (initQueue ⟨id, id⟩ fun _ => none) = some s₂ ∧
      Quiescent s₂ ∧ s₂.poll.pending 1 = true ∧ s₂.dataQ.head = some 10 := by
  refine ⟨_, _, rfl, Fin.forall_fin_two.mpr ⟨.inl rfl, .inr ⟨rfl, rfl⟩⟩, rfl, rfl, rfl,
    Fin.forall_fin_two.mpr ⟨.inl rfl, .inr ⟨rfl, rfl⟩⟩, rfl, rfl⟩

theorem poll_readers_not_stranded_two :
    ∃ s : PollQueue (Fin 2) Nat, Quiescent s ∧ s.poll.pending 1 = true ∧
      sysSlistIsEmpty s.dataQ = true := by
  obtain ⟨-, h⟩ := poll_readers_not_stranded ⟨id, id⟩ (fun _ => none)
    (.of_foldlM (KQueuePoll.step fun _ : Fin 2 => 0) _ [.get 0, .call 0, .poll 0 .scan,
      .poll 0 .decide, .get 1, .call 1, .poll 1 .scan, .poll 1 .decide, .appendList [10],
      .poll 0 .wake, .poll 0 .clear, .retry 0] rfl)
  refine ⟨_, ?quiet, rfl, h ?quiet 1 rfl⟩
  exact Fin.forall_fin_two.mpr ⟨.inl rfl, .inr ⟨rfl, rfl⟩⟩

end Zephyr.KQueuePoll
