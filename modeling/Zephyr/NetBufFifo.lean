import Zephyr.Run
import Zephyr.Slist

/-! Chains of fragments that go through a FIFO or a list, `net_buf_put` and `net_buf_get` of
`subsys/net/buf.c`. The word that links the fragments of a chain also links the list, so that only
the flags say where a chain ends. -/

namespace Zephyr.NetBuf

open Function List Option

section Model

variable {P B : Type}

def netBufFrags : BitVec 8 := 1#8

/-- A `k_fifo` without and with `CONFIG_POLL`, and the list of `net_buf_slist_put`. -/
inductive Kind where
  | fifo
  | fifoPoll
  | slist
deriving DecidableEq

inductive Consumer (B : Type) where
  | idle
  | waits
  | collects (buf frag : B)
  | failed
deriving DecidableEq

inductive Holder (P : Type) where
  | app
  | putting (p : P)
  | fifo
  | getting
deriving DecidableEq

/-- A call of `net_buf_put` in its loop. `chain` only records what `buf` leads to. -/
structure Put (B : Type) where
  buf : B
  tail : B
  chain : List B

/-- The fields from `owner` on only record: the chains each producer has put, all chains in the
order in which they came to the FIFO, what the running `net_buf_get` has taken from it, and the
chains that it has returned. `returned` is what has just been returned. -/
structure State (P B : Type) where
  list : Slist B
  flags : B → BitVec 8
  consumer : Consumer B
  producer : P → Option (Put B)
  returned : Option B
  owner : B → Holder P
  calls : P → List (List B)
  sent : List (P × List B)
  taken : List B
  received : List (List B)

def Flagged (flags : B → BitVec 8) (b : B) : Prop := flags b &&& netBufFrags ≠ 0

instance Flagged.instDecidable (flags : B → BitVec 8) (b : B) : Decidable (Flagged flags b) :=
  inferInstanceAs (Decidable (_ ≠ _))

variable [DecidableEq B]

def give (owner : B → Holder P) (bufs : List B) (holder : Holder P) : B → Holder P :=
  fun b => if b ∈ bufs then holder else owner b

def begin (s : State P B) (buf : B) : State P B :=
  { s with
    consumer := .collects buf buf
    taken := [buf]
    owner := give s.owner [buf] .getting }

/-- `k_fifo_put_list`, and `sys_slist_append_list` for a list: a consumer that waits gets the first
buffer at once. -/
def putList (kind : Kind) (s : State P B) (head tail : B) : State P B :=
  if kind = .fifo ∧ s.consumer = .waits then
    match s.list.next head with
    | none => begin s head
    | some next => begin { s with list := sysSlistAppendList s.list next tail } head
  else { s with list := sysSlistAppendList s.list head tail }

def firstGet (s : State P B) (otherwise : Consumer B) : State P B :=
  match sysSlistGet s.list with
  | (none, _) => { s with consumer := otherwise }
  | (some buf, list) => begin { s with list } buf

def collect (s : State P B) (buf frag : B) : State P B :=
  if Flagged s.flags frag then
    match sysSlistGet s.list with
    | (none, _) => { s with consumer := .failed }
    | (some next, list) =>
      { s with
        list := { list with next := update list.next frag (some next) }
        flags := update s.flags frag (s.flags frag &&& ~~~netBufFrags)
        consumer := .collects buf next
        taken := s.taken ++ [next]
        owner := give s.owner [next] .getting }
  else
    { s with
      list := { s.list with next := update s.list.next frag none }
      consumer := .idle
      returned := some buf
      taken := []
      received := s.received ++ [s.taken]
      owner := give s.owner s.taken .app }

/-- `write`: the application sets the link of a buffer. `put`: a producer calls `net_buf_put` for a
chain; `mark`: a round of its loop; `append`: the rest of it. `get`: the consumer calls
`net_buf_get`; `timeout`, `resume`: a wait ends, without a buffer or to look for one. -/
inductive Act (P B : Type) where
  | write (b : B) (next : Option B)
  | put (p : P) (chain : List B)
  | mark (p : P)
  | append (p : P)
  | get (wait : Bool)
  | timeout
  | resume
  | collect

variable [DecidableEq P]

def sentChain (s : State P B) (p : P) (chain : List B) : State P B :=
  { s with
    producer := update s.producer p none
    sent := s.sent ++ [(p, chain)]
    owner := give s.owner chain .fifo }

def step (kind : Kind) (s : State P B) (a : Act P B) : Option (State P B) :=
  let s := { s with returned := none }
  match a with
  | .write b next =>
    some { s with list := { s.list with next := update s.list.next b next } }
  | .put p chain =>
    match chain with
    | [] => none
    | buf :: _ =>
      some { s with
        producer := update s.producer p (some ⟨buf, buf, chain⟩)
        calls := update s.calls p (s.calls p ++ [chain])
        owner := give s.owner chain (.putting p) }
  | .mark p =>
    (s.producer p).bind fun put =>
      (s.list.next put.tail).map fun tail =>
        { s with
          flags := update s.flags put.tail (s.flags put.tail ||| netBufFrags)
          producer := update s.producer p (some { put with tail }) }
  | .append p =>
    (s.producer p).bind fun put =>
      match s.list.next put.tail with
      | some _ => none
      | none => some (putList kind (sentChain s p put.chain) put.buf put.tail)
  | .get wait =>
    if s.consumer = .idle then
      some (firstGet s (if wait ∧ kind ≠ .slist then .waits else .idle))
    else none
  | .timeout => if s.consumer = .waits then some { s with consumer := .idle } else none
  | .resume => if s.consumer = .waits then some (firstGet s .waits) else none
  | .collect =>
    match s.consumer with
    | .collects buf frag => some (collect s buf frag)
    | _ => none

def Allowed (s : State P B) : Act P B → Prop
  | .write b _ => s.owner b = .app
  | .put p chain => (s.producer p).isNone ∧ chain.Nodup ∧ (∀ b ∈ chain, s.owner b = .app) ∧
      linked s.list.next chain.head? chain
  | .mark _ | .append _ | .get _ | .timeout | .resume | .collect => True

instance Allowed.instDecidable (s : State P B) : (a : Act P B) → Decidable (Allowed s a)
  | .write _ _ => inferInstanceAs (Decidable (_ = _))
  | .put _ _ => inferInstanceAs (Decidable (_ ∧ _ ∧ _ ∧ _))
  | .mark _ | .append _ | .get _ | .timeout | .resume | .collect =>
    inferInstanceAs (Decidable True)

def init (next : B → Option B) (flags : B → BitVec 8) : State P B where
  list := sysSlistInit ⟨next, none, none⟩
  flags := flags
  consumer := .idle
  producer := fun _ => none
  returned := none
  owner := fun _ => .app
  calls := fun _ => []
  sent := []
  taken := []
  received := []

end Model

section Flags

variable {B : Type} {flags flags' : B → BitVec 8} {a b : B} {u c : List B}

theorem flagged_congr (h : flags' b = flags b) : Flagged flags' b ↔ Flagged flags b := by
  rw [Flagged, Flagged, h]

def Marked (flags : B → BitVec 8) : List B → Prop
  | [] => False
  | [b] => ¬ Flagged flags b
  | b :: c => Flagged flags b ∧ Marked flags c

theorem Marked.frame (h : Marked flags c) (heq : ∀ b ∈ c, flags' b = flags b) :
    Marked flags' c := by
  induction c with
  | nil => exact h
  | cons b c ih =>
    rw [forall_mem_cons] at heq
    cases c with
    | nil => exact mt (flagged_congr heq.1).mp h
    | cons d c => exact ⟨(flagged_congr heq.1).mpr h.1, ih h.2 heq.2⟩

theorem marked_concat (hu : ∀ b ∈ u, Flagged flags b) (ha : ¬ Flagged flags a) :
    Marked flags (u ++ [a]) := by
  induction u with
  | nil => exact ha
  | cons b u ih =>
    rw [forall_mem_cons] at hu
    cases u with
    | nil => exact ⟨hu.1, ha⟩
    | cons d u => exact ⟨hu.1, ih hu.2⟩

theorem Marked.eq_nil (h : Marked flags (b :: c)) (hb : ¬ Flagged flags b) : c = [] := by
  cases c with
  | nil => rfl
  | cons d c => exact absurd h.1 hb

theorem Marked.exists_cons (h : Marked flags (b :: c)) (hb : Flagged flags b) :
    ∃ d c', c = d :: c' ∧ Marked flags (d :: c') := by
  cases c with
  | nil => exact absurd hb h
  | cons d c => exact ⟨d, c, rfl, h.2⟩

variable [DecidableEq B]

theorem flagged_set (flags : B → BitVec 8) (b : B) :
    Flagged (update flags b (flags b ||| netBufFrags)) b := by
  rw [Flagged, update_self]
  generalize flags b = x
  revert x
  decide

theorem not_flagged_clear (flags : B → BitVec 8) (b : B) :
    ¬ Flagged (update flags b (flags b &&& ~~~netBufFrags)) b := by
  rw [Flagged, update_self]
  generalize flags b = x
  revert x
  decide

end Flags

section Invariant

variable {P B : Type}

structure PutFine (s : State P B) (p : P) (put : Put B) : Prop where
  owned : ∀ b ∈ put.chain, s.owner b = .putting p
  nodup : put.chain.Nodup
  seg : Seg s.list.next (some put.buf) put.chain none
  place : ∃ u v, put.chain = u ++ put.tail :: v ∧ (∀ b ∈ u, Flagged s.flags b) ∧
    ∀ b ∈ put.tail :: v, ¬ Flagged s.flags b

/-- The fragments that a get has taken are linked, and the last of them goes on with `rest`, which
is still in the FIFO. -/
structure Collecting (s : State P B) (rest : List B) (buf frag : B) : Prop where
  taken : ∃ before, s.taken = before ++ [frag] ∧ Seg s.list.next (some buf) before (some frag) ∧
    ∀ b ∈ before, ¬ Flagged s.flags b
  marked : Marked s.flags (frag :: rest)
  owned : ∀ b ∈ s.taken, s.owner b = .getting
  nodup : s.taken.Nodup

def ConsumerFine (kind : Kind) (s : State P B) (rest : List B) (queue : List (List B)) : Prop :=
  match s.consumer with
  | .idle => s.taken = [] ∧ rest = []
  | .waits => s.taken = [] ∧ rest = [] ∧ (kind = .fifo → queue = [])
  | .collects buf frag => Collecting s rest buf frag
  | .failed => False

def current (taken rest : List B) : List (List B) := if taken.isEmpty then [] else [taken ++ rest]

variable {kind : Kind} {s t : State P B} {rest : List B} {queue : List (List B)}

structure Same (s t : State P B) (b : B) : Prop where
  next : t.list.next b = s.list.next b
  flags : t.flags b = s.flags b
  owner : t.owner b = s.owner b

theorem PutFine.same {p : P} {put : Put B} (h : PutFine s p put)
    (hsame : ∀ b, s.owner b = .putting p → Same s t b) : PutFine t p put := by
  have hsame (b : B) (hb : b ∈ put.chain) : Same s t b := hsame b (h.owned b hb)
  obtain ⟨u, v, hchain, hu, hv⟩ := h.place
  have hflag (b : B) (hb : b ∈ u ++ put.tail :: v) : Flagged t.flags b ↔ Flagged s.flags b :=
    flagged_congr (hsame b (hchain ▸ hb)).flags
  exact {
    owned := fun b hb => (hsame b hb).owner.trans (h.owned b hb)
    nodup := h.nodup
    seg := h.seg.frame fun b hb => (hsame b hb).next
    place := ⟨u, v, hchain, fun b hb => (hflag b (mem_append_left _ hb)).mpr (hu b hb),
      fun b hb => mt (hflag b (mem_append_right _ hb)).mp (hv b hb)⟩ }

theorem PutFine.ended {p : P} {put : Put B} (h : PutFine s p put)
    (hnext : s.list.next put.tail = none) :
    Marked s.flags put.chain ∧ put.chain.getLast? = some put.tail := by
  obtain ⟨u, v, hchain, hu, hv⟩ := h.place
  obtain rfl : v = [] := by
    have hseg := h.seg
    rw [hchain, seg_append_cons, hnext] at hseg
    cases v with
    | nil => rfl
    | cons d v => exact nomatch hseg.2.1
  rw [hchain]
  exact ⟨marked_concat hu (hv put.tail mem_cons_self), by simp⟩

variable {buf frag : B}

theorem Collecting.same (h : Collecting s rest buf frag) (htaken : t.taken = s.taken)
    (hsame : ∀ b, s.owner b = .getting → Same s t b) (hrest : ∀ b ∈ rest, t.flags b = s.flags b) :
    Collecting t rest buf frag := by
  have hsame (b : B) (hb : b ∈ s.taken) : Same s t b := hsame b (h.owned b hb)
  obtain ⟨before, hbefore, hseg, hclear⟩ := h.taken
  have hmem {b : B} (hb : b ∈ before) : b ∈ s.taken := hbefore ▸ mem_append_left _ hb
  have hfrag : frag ∈ s.taken := hbefore ▸ mem_append_right _ (mem_singleton_self _)
  exact {
    taken := ⟨before, htaken.trans hbefore, hseg.frame fun b hb => (hsame b (hmem hb)).next,
      fun b hb => mt (flagged_congr (hsame b (hmem hb)).flags).mp (hclear b hb)⟩
    marked := h.marked.frame (forall_mem_cons.mpr ⟨(hsame frag hfrag).flags, hrest⟩)
    owned := fun b hb => by
      rw [htaken] at hb
      exact (hsame b hb).owner.trans (h.owned b hb)
    nodup := htaken ▸ h.nodup }

theorem Collecting.frag_not_mem {before : List B} (h : Collecting s rest buf frag)
    (hbefore : s.taken = before ++ [frag]) : frag ∉ before := by
  have hnodup := h.nodup
  rw [hbefore, nodup_append] at hnodup
  exact fun hmem => hnodup.2.2 frag hmem frag (by simp) rfl

theorem ConsumerFine.same (h : ConsumerFine kind s rest queue) (hcons : t.consumer = s.consumer)
    (htaken : t.taken = s.taken) (hsame : ∀ b, s.owner b = .getting → Same s t b)
    (hrest : ∀ b ∈ rest, t.flags b = s.flags b) : ConsumerFine kind t rest queue := by
  unfold ConsumerFine at h ⊢
  rw [hcons, htaken]
  cases hc : s.consumer with
  | idle => simpa only [hc] using h
  | waits => simpa only [hc] using h
  | collects buf frag =>
    rw [hc] at h
    exact Collecting.same h htaken hsame hrest
  | failed =>
    rw [hc] at h
    exact h.elim

theorem ConsumerFine.requeue {kind' : Kind} {queue' : List (List B)}
    (h : ConsumerFine kind s rest queue)
    (hwaits : s.consumer = .waits → kind' = .fifo → queue' = []) :
    ConsumerFine kind' s rest queue' := by
  unfold ConsumerFine at h ⊢
  cases hc : s.consumer with
  | idle => simpa only [hc] using h
  | waits =>
    rw [hc] at h
    exact ⟨h.1, h.2.1, hwaits hc⟩
  | collects buf frag => simpa only [hc] using h
  | failed =>
    rw [hc] at h
    exact h.elim

variable [DecidableEq P] {next : B → Option B}

structure Holds (kind : Kind) (s : State P B) (rest : List B) (queue : List (List B)) : Prop where
  list : s.list.IsList (rest ++ queue.flatten)
  owned : ∀ b ∈ rest ++ queue.flatten, s.owner b = .fifo
  marked : ∀ c ∈ queue, Marked s.flags c
  sent : s.sent.map Prod.snd = s.received ++ (current s.taken rest ++ queue)
  consumer : ConsumerFine kind s rest queue
  producers : ∀ p put, s.producer p = some put → PutFine s p put
  app : ∀ b, s.owner b = .app → ¬ Flagged s.flags b
  calls : ∀ p, s.calls p = (s.sent.filter (·.1 = p)).map Prod.snd ++
    ((s.producer p).map Put.chain).toList
  returned : ∀ buf ∈ s.returned, ∃ chain, s.received.getLast? = some chain ∧
    Seg s.list.next (some buf) chain none ∧ ∀ b ∈ chain, ¬ Flagged s.flags b

theorem Holds.poll (h : Holds kind s rest queue) : Holds .fifoPoll s rest queue :=
  { h with consumer := h.consumer.requeue nofun }

theorem Holds.quiet (h : Holds kind s rest queue) :
    Holds kind { s with returned := none } rest queue :=
  { h with
    consumer := h.consumer.same rfl rfl (fun _ _ => ⟨rfl, rfl, rfl⟩) fun _ _ => rfl
    producers := fun p put hput => (h.producers p put hput).same fun _ _ => ⟨rfl, rfl, rfl⟩
    returned := fun _ hbuf => nomatch hbuf }

theorem holds_init {flags : B → BitVec 8} (hflags : ∀ b, ¬ Flagged flags b)
    (kind : Kind) : Holds kind (init next flags : State P B) [] [] where
  list := sysSlistInit_isList _
  owned := nofun
  marked := nofun
  sent := rfl
  consumer := ⟨rfl, rfl⟩
  producers := nofun
  app := fun b _ => hflags b
  calls := fun _ => rfl
  returned := nofun

variable {p : P}

theorem update_eq_some {producer : P → Option (Put B)} {x : Option (Put B)} {q : P} {put : Put B}
    (h : update producer p x q = some put) :
    q = p ∧ x = some put ∨ q ≠ p ∧ producer q = some put := by
  by_cases hq : q = p
  · subst hq
    rw [update_self] at h
    exact .inl ⟨rfl, h⟩
  · rw [update_of_ne hq] at h
    exact .inr ⟨hq, h⟩

theorem Holds.sent_calls (h : Holds kind s rest queue) {put : Put B}
    (hp : s.producer p = some put) (q : P) :
    s.calls q = ((s.sent ++ [(p, put.chain)]).filter (·.1 = q)).map Prod.snd ++
      ((update s.producer p none q).map Put.chain).toList := by
  have hcalls := h.calls q
  by_cases hq : q = p
  · subst hq
    simpa [hp] using hcalls
  · have hne : p ≠ q := fun heq => hq heq.symm
    simpa [hne, update_of_ne hq] using hcalls

variable [DecidableEq B]

theorem Holds.write (h : Holds kind s rest queue) {b : B} (next : Option B)
    (hb : s.owner b = .app) (hquiet : s.returned = none) :
    Holds kind { s with list := { s.list with next := update s.list.next b next } } rest queue := by
  have hsame (a : B) (ha : s.owner a ≠ .app) :
      Same s { s with list := { s.list with next := update s.list.next b next } } a :=
    ⟨update_of_ne (fun heq : a = b => ha (heq ▸ hb)) .., rfl, rfl⟩
  exact { h with
    list := h.list.frame fun a ha => (hsame a (h.owned a ha ▸ nofun)).next
    consumer := h.consumer.same rfl rfl (fun a ha => hsame a (ha ▸ nofun)) fun _ _ => rfl
    producers := fun p put hput =>
      (h.producers p put hput).same fun a ha => hsame a (ha ▸ nofun)
    returned := by simp [hquiet] }

variable {owner : B → Holder P} {holder : Holder P} {bufs : List B}

section

omit [DecidableEq P]

theorem give_of_mem {b : B} (hb : b ∈ bufs) : give owner bufs holder b = holder := if_pos hb

theorem give_of_not_mem {b : B} (hb : b ∉ bufs) : give owner bufs holder b = owner b := if_neg hb

theorem app_of_give {b : B}
    (hb : give owner bufs holder b = .app) (hne : holder ≠ .app) : owner b = .app := by
  by_cases hmem : b ∈ bufs
  · exact absurd ((give_of_mem hmem).symm.trans hb) hne
  · exact (give_of_not_mem hmem).symm.trans hb

end

theorem Holds.put (h : Holds kind s rest queue) {buf : B} {c : List B}
    (hp : s.producer p = none) (hnodup : (buf :: c).Nodup) (hown : ∀ b ∈ buf :: c, s.owner b = .app)
    (hseg : Seg s.list.next (some buf) (buf :: c) none) (hquiet : s.returned = none) :
    Holds kind { s with
        producer := update s.producer p (some ⟨buf, buf, buf :: c⟩)
        calls := update s.calls p (s.calls p ++ [buf :: c])
        owner := give s.owner (buf :: c) (.putting p) } rest queue := by
  have howner {b : B} (hb : s.owner b ≠ .app) :
      give s.owner (buf :: c) (.putting p) b = s.owner b :=
    give_of_not_mem fun hmem => hb (hown b hmem)
  refine { h with
    owned := ?_
    consumer := ?_
    producers := ?_
    app := ?_
    calls := ?_
    returned := by simp [hquiet] }
  · exact fun b hb => (howner (h.owned b hb ▸ nofun)).trans (h.owned b hb)
  · exact h.consumer.same rfl rfl (fun b hb => ⟨rfl, rfl, howner (hb ▸ nofun)⟩) fun _ _ => rfl
  · intro q put hput
    rcases update_eq_some hput with ⟨rfl, hcall⟩ | ⟨hq, hcall⟩
    · cases hcall
      exact ⟨fun b hb => give_of_mem hb, hnodup, hseg, [], c, rfl, nofun,
        fun b hb => h.app b (hown b hb)⟩
    · exact (h.producers q put hcall).same fun b hb => ⟨rfl, rfl, howner (hb ▸ nofun)⟩
  · exact fun b hb => h.app b (app_of_give hb nofun)
  · intro q
    by_cases hq : q = p
    · subst hq
      have hcalls := h.calls q
      rw [hp] at hcalls
      simp [hcalls]
    · simp only [update_of_ne hq]
      exact h.calls q

theorem Holds.mark (h : Holds kind s rest queue) {put : Put B} {tail : B}
    (hp : s.producer p = some put) (hnext : s.list.next put.tail = some tail)
    (hquiet : s.returned = none) :
    Holds kind { s with
        flags := update s.flags put.tail (s.flags put.tail ||| netBufFrags)
        producer := update s.producer p (some { put with tail }) } rest queue := by
  have hfine := h.producers p put hp
  obtain ⟨u, v, hchain, hu, hv⟩ := hfine.place
  have howner : s.owner put.tail = .putting p := hfine.owned _ (by rw [hchain]; simp)
  have hflags {b : B} (hb : s.owner b ≠ .putting p) :
      update s.flags put.tail (s.flags put.tail ||| netBufFrags) b = s.flags b :=
    update_of_ne (fun heq : b = put.tail => hb (heq ▸ howner)) ..
  refine { h with
    marked := ?_
    consumer := ?_
    producers := ?_
    app := ?_
    calls := ?_
    returned := by simp [hquiet] }
  · intro c hc
    refine (h.marked c hc).frame fun b hb => hflags ?_
    rw [h.owned b (mem_append_right _ (mem_flatten_of_mem hc hb))]
    exact nofun
  · refine h.consumer.same rfl rfl (fun b hb => ⟨rfl, hflags (hb ▸ nofun), rfl⟩) fun b hb => ?_
    apply hflags
    rw [h.owned b (mem_append_left _ hb)]
    exact nofun
  · intro q put' hput
    rcases update_eq_some hput with ⟨rfl, hcall⟩ | ⟨hq, hcall⟩
    · cases hcall
      refine ⟨hfine.owned, hfine.nodup, hfine.seg, ?_⟩
      -- the link leads to the fragment behind the one that is marked
      have hseg := hfine.seg
      rw [hchain, seg_append_cons, hnext] at hseg
      obtain ⟨v', rfl⟩ : ∃ v', v = tail :: v' := by
        cases v with
        | nil => exact nomatch hseg.2
        | cons d v' => exact ⟨v', by rw [some.inj hseg.2.1]⟩
      have hnodup := hfine.nodup
      rw [hchain, nodup_append] at hnodup
      refine ⟨u ++ [put.tail], v', by rw [hchain]; simp, fun b hb => ?_, fun b hb => ?_⟩
      · rcases mem_append.mp hb with hb | hb
        · have hne : b ≠ put.tail := fun heq =>
            hnodup.2.2 b hb put.tail mem_cons_self heq
          exact (flagged_congr (update_of_ne hne ..)).mpr (hu b hb)
        · rw [mem_singleton.mp hb]
          exact flagged_set s.flags put.tail
      · have hne : b ≠ put.tail := fun heq =>
          hnodup.2.1.notMem (heq ▸ hb)
        exact mt (flagged_congr (update_of_ne hne ..)).mp (hv b (mem_cons_of_mem _ hb))
    · refine (h.producers q put' hcall).same fun b hb => ⟨rfl, hflags fun heq => hq ?_, rfl⟩
      rw [hb] at heq
      exact Holder.putting.inj heq
  · exact fun b hb => mt (flagged_congr (hflags (hb ▸ nofun))).mp (h.app b hb)
  · intro q
    by_cases hq : q = p
    · subst hq
      simp [h.calls q, hp]
    · simp only [update_of_ne hq]
      exact h.calls q

theorem Holds.appendList (h : Holds kind s rest queue) {put : Put B}
    (hp : s.producer p = some put) (hnext : s.list.next put.tail = none)
    (hquiet : s.returned = none) (hwaits : ¬ (kind = .fifo ∧ s.consumer = .waits)) :
    Holds kind { sentChain s p put.chain with
      list := sysSlistAppendList s.list put.buf put.tail } rest (queue ++ [put.chain]) := by
  have hfine := h.producers p put hp
  obtain ⟨hmarked, hlast⟩ := hfine.ended hnext
  have hnodup : (rest ++ queue.flatten ++ put.chain).Nodup := by
    refine h.list.nodup.append hfine.nodup fun b hb hmem => ?_
    exact nomatch (h.owned b hb).symm.trans (hfine.owned b hmem)
  have hlist := sysSlistAppendList_isList h.list hfine.seg hlast hnodup
  have howner {b : B} (hb : s.owner b ≠ .putting p) : give s.owner put.chain .fifo b = s.owner b :=
    give_of_not_mem fun hmem => hb (hfine.owned b hmem)
  have hsame (b : B) (hp' : s.owner b ≠ .putting p) (hfifo : s.owner b ≠ .fifo) :
      Same s { sentChain s p put.chain with
        list := sysSlistAppendList s.list put.buf put.tail } b :=
    ⟨sysSlistAppendList_next h.list _ _ fun hmem => hfifo (h.owned b hmem), rfl, howner hp'⟩
  have hsent : (sentChain s p put.chain).sent.map Prod.snd =
      s.received ++ (current s.taken rest ++ (queue ++ [put.chain])) := by
    rw [sentChain, map_append, h.sent]
    simp
  refine ⟨?_, ?_, ?_, hsent, ?_, ?_, ?_, h.sent_calls hp, ?_⟩
  · rw [flatten_append, flatten_singleton, ← append_assoc]
    exact hlist
  · intro b hb
    rw [flatten_append, flatten_singleton, ← append_assoc] at hb
    rcases mem_append.mp hb with hb | hb
    · exact (howner (h.owned b hb ▸ nofun)).trans (h.owned b hb)
    · exact give_of_mem hb
  · intro c hc
    rcases mem_append.mp hc with hc | hc
    · exact h.marked c hc
    · exact mem_singleton.mp hc ▸ hmarked
  · exact (h.consumer.requeue fun hc hkind => absurd ⟨hkind, hc⟩ hwaits).same rfl rfl
      (fun b hb => hsame b (hb ▸ nofun) (hb ▸ nofun)) fun _ _ => rfl
  · intro q put' hput
    rcases update_eq_some hput with ⟨-, hnone⟩ | ⟨hq, hcall⟩
    · cases hnone
    · refine (h.producers q put' hcall).same fun b hb => hsame b (fun heq => hq ?_) (hb ▸ nofun)
      exact Holder.putting.inj (hb.symm.trans heq)
  · exact fun b hb => h.app b (app_of_give hb nofun)
  · simp [sentChain, hquiet]

theorem Holds.begin {buf : B} {c : List B} (h : Holds kind s [] ((buf :: c) :: queue))
    (htaken : s.taken = []) (hquiet : s.returned = none) {list : Slist B}
    (hlist : list.IsList (c ++ queue.flatten)) (hnext : ∀ b, list.next b = s.list.next b)
    (kind' : Kind) : Holds kind' (begin { s with list } buf) c queue := by
  have hnodup : buf ∉ c ++ queue.flatten := by
    have hnodup := h.list.nodup
    rw [nil_append, flatten_cons, cons_append] at hnodup
    exact hnodup.notMem
  have hbuf : s.owner buf = .fifo := h.owned buf (by simp)
  have hsame (b : B) (hb : s.owner b ≠ .fifo) : Same s (NetBuf.begin { s with list } buf) b :=
    ⟨hnext b, rfl, give_of_not_mem fun hmem => hb (mem_singleton.mp hmem ▸ hbuf)⟩
  refine ⟨hlist, ?_, fun d hd => h.marked d (mem_cons_of_mem _ hd), ?_, ?_, ?_, ?_, h.calls, ?_⟩
  · intro b hb
    have hne : b ∉ [buf] := fun hmem => hnodup (mem_singleton.mp hmem ▸ hb)
    exact (give_of_not_mem hne).trans (h.owned b (mem_cons_of_mem buf hb))
  · have hsent := h.sent
    rw [htaken] at hsent
    exact hsent
  · exact {
      taken := ⟨[], rfl, rfl, nofun⟩
      marked := h.marked _ mem_cons_self
      owned := fun b hb => give_of_mem hb
      nodup := nodup_singleton buf }
  · exact fun q put hput => (h.producers q put hput).same fun b hb => hsame b (hb ▸ nofun)
  · exact fun b hb => h.app b (app_of_give hb nofun)
  · simp [NetBuf.begin, hquiet]

theorem Holds.append (h : Holds kind s rest queue) {put : Put B} (hp : s.producer p = some put)
    (hnext : s.list.next put.tail = none) (hquiet : s.returned = none) :
    ∃ rest' queue', Holds kind (putList kind (sentChain s p put.chain) put.buf put.tail)
      rest' queue' := by
  rw [putList]
  split
  · next hwaits =>
    -- the list is empty, and the first buffer goes to the consumer
    have hc := h.consumer
    have hcons : s.consumer = .waits := hwaits.2
    rw [ConsumerFine, hcons] at hc
    obtain ⟨htaken, rfl, hempty⟩ := hc
    obtain rfl := hempty hwaits.1
    have hpoll := h.poll.appendList hp hnext hquiet nofun
    have hempty : s.list.tail = none := h.list.tail
    have hsame (a b : B) : (sysSlistAppendList s.list a b).next = s.list.next := by
      rw [sysSlistAppendList, hempty]
    have hseg := (h.producers p put hp).seg
    have hnodup := (h.producers p put hp).nodup
    obtain ⟨-, hlast⟩ := (h.producers p put hp).ended hnext
    match hchain : put.chain with
    | [] => rw [hchain] at hlast; cases hlast
    | buf :: c =>
      rw [hchain] at hseg hpoll hlast hnodup
      cases hseg.1
      refine ⟨c, [], ?_⟩
      have hbegin {list : Slist B} (hlist : list.IsList c) (heq : list.next = s.list.next) :
          Holds kind (NetBuf.begin { sentChain s p (put.buf :: c) with list } put.buf) c [] :=
        hpoll.begin htaken hquiet (by simpa using hlist) (fun b => by rw [heq, hsame]) kind
      have hhead : (sentChain s p (put.buf :: c)).list.next put.buf = s.list.next put.buf := rfl
      rw [hhead]
      cases c with
      | nil =>
        have hnone : s.list.next put.buf = none := hseg.2
        rw [hnone]
        exact hbegin h.list rfl
      | cons d c =>
        obtain ⟨hd, hrest⟩ := hseg.2
        rw [hd]
        refine hbegin (sysSlistAppendList_isList h.list ⟨rfl, hrest⟩ ?_ ?_) (hsame ..)
        · rwa [getLast?_cons_cons] at hlast
        · exact hnodup.of_cons
  · next hwaits => exact ⟨rest, _, h.appendList hp hnext hquiet hwaits⟩

theorem Holds.firstGet (h : Holds kind s [] queue) (htaken : s.taken = [])
    (hquiet : s.returned = none) {otherwise : Consumer B}
    (hother : otherwise = .idle ∨ otherwise = .waits) :
    ∃ rest' queue', Holds kind (firstGet s otherwise) rest' queue' := by
  rw [NetBuf.firstGet]
  cases queue with
  | nil =>
    have hlist : s.list.IsList [] := h.list
    rw [sysSlistGet_nil hlist]
    refine ⟨[], [], { h with
      consumer := ?_
      producers := fun q put hput => (h.producers q put hput).same fun _ _ => ⟨rfl, rfl, rfl⟩ }⟩
    rcases hother with rfl | rfl
    · exact ⟨htaken, rfl⟩
    · exact ⟨htaken, rfl, fun _ => rfl⟩
  | cons chain queue =>
    match chain, h with
    | [], h => exact (h.marked [] mem_cons_self).elim
    | buf :: c, h =>
      have hqueue : s.list.IsList (buf :: (c ++ queue.flatten)) := h.list
      obtain ⟨hget, hlist, hnext⟩ := sysSlistGet_cons hqueue
      generalize sysSlistGet s.list = r at hget hlist hnext
      obtain ⟨b, _⟩ := r
      obtain rfl : b = some buf := hget
      exact ⟨c, queue, h.begin htaken hquiet hlist (fun b => congrFun hnext b) kind⟩

theorem Holds.collect_more (h : Holds kind s rest queue)
    (hcons : s.consumer = .collects buf frag) (hflag : Flagged s.flags frag)
    (hquiet : s.returned = none) : ∃ rest', Holds kind (collect s buf frag) rest' queue := by
  have hc := h.consumer
  rw [ConsumerFine, hcons] at hc
  obtain ⟨d, rest', rfl, hmarked⟩ := hc.marked.exists_cons hflag
  obtain ⟨before, htaken, hseg, hclear⟩ := hc.taken
  have hfrag : s.owner frag = .getting := hc.owned frag (by rw [htaken]; simp)
  have hd : s.owner d = .fifo := h.owned d (by simp)
  have hnodup := h.list.nodup
  rw [cons_append, nodup_cons] at hnodup
  have hqueue : s.list.IsList (d :: (rest' ++ queue.flatten)) := h.list
  obtain ⟨hget, hlist, hnext⟩ := sysSlistGet_cons hqueue
  rw [collect, if_pos hflag]
  generalize sysSlistGet s.list = r at hget hlist hnext
  obtain ⟨b, list⟩ := r
  obtain rfl : b = some d := hget
  have hnext (b : B) (hb : b ≠ frag) : update list.next frag (some d) b = s.list.next b :=
    (update_of_ne hb ..).trans (congrFun hnext b)
  have hflags (b : B) (hb : b ≠ frag) :
      update s.flags frag (s.flags frag &&& ~~~netBufFrags) b = s.flags b :=
    update_of_ne hb ..
  have hne {b : B} (hb : s.owner b ≠ .getting) : b ≠ frag := fun heq => hb (heq ▸ hfrag)
  have hfifo {b : B} (hb : b ∈ d :: rest' ++ queue.flatten) : b ≠ frag :=
    hne (h.owned b hb ▸ nofun)
  have howner {b : B} (hb : b ≠ d) : give s.owner [d] .getting b = s.owner b :=
    give_of_not_mem fun hmem => hb (mem_singleton.mp hmem)
  refine ⟨rest', ⟨?_, ?_, ?_, ?_, ?_, ?_, ?_, h.calls, ?_⟩⟩
  · exact hlist.frame fun b hb => update_of_ne (hfifo (mem_cons_of_mem d hb)) ..
  · intro b hb
    have hbd : b ≠ d := fun heq => hnodup.1 (heq ▸ hb)
    exact (howner hbd).trans (h.owned b (mem_cons_of_mem d hb))
  · intro c hc
    refine (h.marked c hc).frame fun b hb => hflags b (hfifo ?_)
    exact mem_append_right _ (mem_flatten_of_mem hc hb)
  · have hsent := h.sent
    simpa [current, htaken] using hsent
  · have hbefore := hc.frag_not_mem htaken
    refine ⟨⟨before ++ [frag], by rw [htaken], ?_, ?_⟩, ?_, ?_, ?_⟩
    · refine seg_concat.mpr ⟨hseg.frame fun b hb => hnext b ?_, update_self ..⟩
      exact ne_of_mem_of_not_mem hb hbefore
    · intro b hb
      rcases mem_append.mp hb with hb | hb
      · exact mt (flagged_congr (hflags b (ne_of_mem_of_not_mem hb hbefore))).mp (hclear b hb)
      · rw [mem_singleton.mp hb]
        exact not_flagged_clear s.flags frag
    · exact hmarked.frame fun b hb => hflags b (hfifo (mem_append_left _ hb))
    · intro b hb
      rcases mem_append.mp hb with hmem | hmem
      · have hbd : b ≠ d := by
          rintro rfl
          exact nomatch (hc.owned b hmem).symm.trans hd
        exact (howner hbd).trans (hc.owned b hmem)
      · exact give_of_mem hmem
    · refine hc.nodup.append (nodup_singleton d) fun b hb hmem => ?_
      rw [mem_singleton.mp hmem] at hb
      exact nomatch (hc.owned d hb).symm.trans hd
  · intro q put hput
    refine (h.producers q put hput).same fun b hb => ?_
    have hbd : b ≠ d := by
      rintro rfl
      exact nomatch hb.symm.trans hd
    exact ⟨hnext b (hne (hb ▸ nofun)), hflags b (hne (hb ▸ nofun)), howner hbd⟩
  · intro b hb
    have hb := app_of_give hb nofun
    exact mt (flagged_congr (hflags b (hne (hb ▸ nofun)))).mp (h.app b hb)
  · simp [hquiet]

theorem Holds.collect_last (h : Holds kind s rest queue)
    (hcons : s.consumer = .collects buf frag) (hflag : ¬ Flagged s.flags frag) :
    Holds kind (collect s buf frag) [] queue := by
  have hc := h.consumer
  rw [ConsumerFine, hcons] at hc
  obtain rfl := hc.marked.eq_nil hflag
  obtain ⟨_, htaken, hseg, hclear⟩ := hc.taken
  have hfrag : s.owner frag = .getting := hc.owned frag (by rw [htaken]; simp)
  have hnext (b : B) (hb : s.owner b ≠ .getting) : update s.list.next frag none b = s.list.next b :=
    update_of_ne (fun heq : b = frag => hb (heq ▸ hfrag)) ..
  have howner {b : B} (hb : s.owner b ≠ .getting) : give s.owner s.taken .app b = s.owner b :=
    give_of_not_mem fun hmem => hb (hc.owned b hmem)
  have hflags (b : B) (hb : b ∈ s.taken) : ¬ Flagged s.flags b := by
    rw [htaken] at hb
    rcases mem_append.mp hb with hb | hb
    · exact hclear b hb
    · exact mem_singleton.mp hb ▸ hflag
  rw [collect, if_neg hflag]
  refine ⟨?_, ?_, h.marked, ?_, ⟨rfl, rfl⟩, ?_, ?_, h.calls, ?_⟩
  · exact h.list.frame fun b hb => hnext b (h.owned b hb ▸ nofun)
  · exact fun b hb => (howner (h.owned b hb ▸ nofun)).trans (h.owned b hb)
  · have hsent := h.sent
    simpa [current, htaken] using hsent
  · exact fun q put hput => (h.producers q put hput).same fun b hb =>
      ⟨hnext b (hb ▸ nofun), rfl, howner (hb ▸ nofun)⟩
  · intro b hb
    by_cases hmem : b ∈ s.taken
    · exact hflags b hmem
    · exact h.app b ((give_of_not_mem hmem).symm.trans hb)
  · intro b hb
    cases hb
    refine ⟨s.taken, getLast?_concat .., ?_, hflags⟩
    rw [htaken]
    exact hseg.redirect (hc.frag_not_mem htaken)

theorem Holds.step (h : Holds kind s rest queue) {a : Act P B} (hok : Allowed s a)
    (hstep : step kind s a = some t) : ∃ rest' queue', Holds kind t rest' queue' := by
  have h0 := h.quiet
  cases a with
  | write b next =>
    cases hstep
    exact ⟨rest, queue, h0.write next hok rfl⟩
  | put p chain =>
    obtain ⟨hp, hnodup, hown, hlinked⟩ := hok
    cases chain with
    | nil => cases hstep
    | cons buf c =>
      cases hstep
      exact ⟨rest, queue, h0.put (isNone_iff_eq_none.mp hp) hnodup hown (linked_iff.mp hlinked) rfl⟩
  | mark p =>
    obtain ⟨put, hp, hmap⟩ := bind_eq_some_iff.mp hstep
    obtain ⟨tail, hnext, rfl⟩ := map_eq_some_iff.mp hmap
    exact ⟨rest, queue, h0.mark hp hnext rfl⟩
  | append p =>
    obtain ⟨put, hp, hput⟩ := bind_eq_some_iff.mp hstep
    cases hnext : s.list.next put.tail with
    | some tail =>
      dsimp only at hput
      rw [hnext] at hput
      cases hput
    | none =>
      dsimp only at hput
      rw [hnext] at hput
      cases hput
      exact h0.append hp hnext rfl
  | get wait =>
    obtain ⟨hidle, hget⟩ := ite_none_right_eq_some.mp hstep
    cases hget
    have hc := h0.consumer
    rw [ConsumerFine, hidle] at hc
    obtain ⟨htaken, rfl⟩ := hc
    refine h0.firstGet htaken rfl ?_
    split
    · exact .inr rfl
    · exact .inl rfl
  | timeout =>
    obtain ⟨hwaits, hget⟩ := ite_none_right_eq_some.mp hstep
    cases hget
    have hc := h0.consumer
    rw [ConsumerFine, hwaits] at hc
    refine ⟨rest, queue, { h0 with
      consumer := ⟨hc.1, hc.2.1⟩
      producers := fun q put hput => (h.producers q put hput).same fun _ _ => ⟨rfl, rfl, rfl⟩ }⟩
  | resume =>
    obtain ⟨hwaits, hget⟩ := ite_none_right_eq_some.mp hstep
    cases hget
    have hc := h0.consumer
    rw [ConsumerFine, hwaits] at hc
    obtain ⟨htaken, rfl, -⟩ := hc
    exact h0.firstGet htaken rfl (.inr rfl)
  | collect =>
    cases hcons : s.consumer with
    | idle | waits | failed => simp [NetBuf.step, hcons] at hstep
    | collects buf frag =>
      have hstep : some (collect { s with returned := none } buf frag) = some t := by
        simpa [NetBuf.step, hcons] using hstep
      cases hstep
      by_cases hflag : Flagged s.flags frag
      · obtain ⟨rest', hmore⟩ := h0.collect_more hcons hflag rfl
        exact ⟨rest', queue, hmore⟩
      · exact ⟨[], queue, h0.collect_last hcons hflag⟩

/-- The consumer's assertion never fails. The chains it has received are the first ones that came to
the FIFO, and all of them when it is idle and the FIFO is empty; those of one producer are in the
order of its calls. What it has just returned leads to the last of them, without a flag. -/
theorem delivered_of_run {flags : B → BitVec 8} (hflags : ∀ b, ¬ Flagged flags b)
    (hrun : GuardedRun (step kind) Allowed (init next flags : State P B) s) :
    s.consumer ≠ .failed ∧ s.received = (s.sent.take s.received.length).map Prod.snd ∧
      (s.consumer = .idle → s.list.head = none → s.received = s.sent.map Prod.snd) ∧
      (∀ p, ((s.sent.take s.received.length).filter (·.1 = p)).map Prod.snd <+: s.calls p) ∧
      ∀ buf ∈ s.returned, ∃ chain, s.received.getLast? = some chain ∧
        Seg s.list.next (some buf) chain none ∧ ∀ b ∈ chain, ¬ Flagged s.flags b := by
  obtain ⟨rest, queue, h⟩ := hrun.invariant (P := fun s => ∃ rest queue, Holds kind s rest queue)
    (fun _ _ _ ⟨_, _, hs⟩ => hs.step) ⟨[], [], holds_init hflags kind⟩
  have hreceived : s.received = (s.sent.take s.received.length).map Prod.snd := by
    rw [map_take, h.sent, take_left]
  refine ⟨fun hfailed => ?_, hreceived, fun hidle hempty => ?_, fun p => ?_, h.returned⟩
  · have hc := h.consumer
    rw [ConsumerFine, hfailed] at hc
    exact hc
  · have hc := h.consumer
    rw [ConsumerFine, hidle] at hc
    obtain ⟨htaken, rfl⟩ := hc
    have hflat : queue.flatten = [] := by
      have hseg := h.list.seg
      rw [hempty] at hseg
      exact Seg.unique (p := none) hseg rfl
    have hqueue : queue = [] := by
      refine eq_nil_iff_forall_not_mem.mpr fun c hc => ?_
      have hmarked := h.marked c hc
      rw [flatten_eq_nil_iff.mp hflat c hc] at hmarked
      exact hmarked
    rw [h.sent, htaken, hqueue]
    simp [current]
  · rw [h.calls p]
    refine List.IsPrefix.trans ?_ (prefix_append ..)
    exact (( take_prefix ..).filter _).map _

end Invariant

def twoProducers : Option (State Bool (Fin 3)) :=
  [.write 0 (some 1), .get true, .put false [0, 1], .mark false, .put true [2], .append true,
    .append false, .collect, .get false, .collect, .collect].foldlM
    (fun s a => if Allowed s a then step .fifo s a else none) (init (fun _ => none) fun _ => 0)

theorem twoProducers_isSome : twoProducers.isSome := by decide +kernel

theorem twoProducers_delivered : (twoProducers.get twoProducers_isSome).received = [[2], [0, 1]] ∧
      ∃ chain, (twoProducers.get twoProducers_isSome).received.getLast? = some chain ∧
        Seg (twoProducers.get twoProducers_isSome).list.next (some 0) chain none ∧
        ∀ b ∈ chain, ¬ Flagged (twoProducers.get twoProducers_isSome).flags b :=
  ⟨by decide +kernel, (delivered_of_run (by decide)
    (.of_foldlM (step .fifo) Allowed _ (some_get _).symm)).2.2.2.2 0 (by decide +kernel)⟩

end Zephyr.NetBuf
