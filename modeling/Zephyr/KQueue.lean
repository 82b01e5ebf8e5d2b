import Zephyr.Run
import Zephyr.Slist

/-! `kernel/queue.c` without `CONFIG_POLL`: an item goes to the first waiting thread, or on the
data list when no thread waits. `k_queue_append` reads the tail before it locks interrupts, so an
insertion after a node that was dequeued meanwhile loses its item. -/

namespace Zephyr.KQueue

open Function

variable {T A : Type}

/-- A queue and the calls in progress. `sampled` is the item and the tail that a caller of
`k_queue_append` holds before it locks. The last three fields only record: the items given to a
call and not yet returned, and the items inserted and returned so far. -/
structure Queue (T A : Type) where
  dataQ : Slist A
  waitQ : List T
  sampled : T → Option (A × Option A)
  lent : A → Bool
  inserted : List A
  returned : List (T × A)

/-- `_pend_thread`: behind the threads of the same or a higher priority. -/
def pendOnWaitQ (prio : T → Int) (t : T) (waitQ : List T) : List T :=
  waitQ.takeWhile (fun pending => ¬ prio t < prio pending) ++
    t :: waitQ.dropWhile (fun pending => ¬ prio t < prio pending)

section

variable [DecidableEq A]

def prepareThreadToRun (s : Queue T A) (t : T) (data : A) : Queue T A :=
  { s with returned := s.returned ++ [(t, data)], lent := update s.lent data false }

def lendItems (s : Queue T A) (items : List A) : Queue T A :=
  { s with
    inserted := s.inserted ++ items
    lent := fun a => if a ∈ items then true else s.lent a }

def kQueueInsert (s : Queue T A) (prev : Option A) (data : A) : Queue T A :=
  let s := lendItems s [data]
  match s.waitQ with
  | t :: waitQ => prepareThreadToRun { s with waitQ } t data
  | [] => { s with dataQ := sysSlistInsert s.dataQ prev data }

/-- The loop of `k_queue_append_list`, with the threads that wait and the head it has come to. -/
def handOver (s : Queue T A) : List T → Option A → Queue T A × Option A
  | waitQ, none => ({ s with waitQ }, none)
  | [], some head => ({ s with waitQ := [] }, some head)
  | t :: waitQ, some head => handOver (prepareThreadToRun s t head) waitQ (s.dataQ.next head)

/-- The items are those that the caller has linked from `head` to `tail`. -/
def kQueueAppendList (s : Queue T A) (items : List A) (head tail : A) : Queue T A :=
  let s := lendItems s items
  match handOver s s.waitQ (some head) with
  | (s, some head) => { s with dataQ := sysSlistAppendList s.dataQ head tail }
  | (s, none) => s

def kQueueGet (prio : T → Int) (s : Queue T A) (t : T) (wait : Bool) : Queue T A :=
  match sysSlistGet s.dataQ with
  | (some data, dataQ) => prepareThreadToRun { s with dataQ } t data
  | (none, _) => if wait then { s with waitQ := pendOnWaitQ prio t s.waitQ } else s

inductive Act (T A : Type) where
  | appendCall (t : T) (data : A)
  | appendLocked (t : T)
  | insert (prev : Option A) (data : A)
  | appendList (items : List A)
  | get (t : T) (wait : Bool)
  | timeout (t : T)
  | cancelWait
  | write (a : A) (next : Option A)
deriving DecidableEq

variable [DecidableEq T]

/-- `insert` is `k_queue_insert`, and `k_queue_prepend` with a null `prev`; in `timeout` and
`cancelWait` a waiting thread's `k_queue_get` returns `NULL`; in `write` the application uses the
first word of an item that it holds. -/
def step (prio : T → Int) (s : Queue T A) : Act T A → Option (Queue T A)
  | .appendCall t data =>
    some { s with
      sampled := update s.sampled t (some (data, s.dataQ.tail))
      lent := update s.lent data true }
  | .appendLocked t =>
    (s.sampled t).map fun (data, prev) =>
      kQueueInsert { s with sampled := update s.sampled t none } prev data
  | .insert prev data => some (kQueueInsert s prev data)
  | .appendList items =>
    match items.head?, items.getLast? with
    | some head, some tail => some (kQueueAppendList s items head tail)
    | _, _ => none
  | .get t wait => some (kQueueGet prio s t wait)
  | .timeout t => some { s with waitQ := s.waitQ.erase t }
  | .cancelWait => some { s with waitQ := s.waitQ.tail }
  | .write a next => some { s with dataQ := { s.dataQ with next := update s.dataQ.next a next } }

def Allowed (s : Queue T A) : Act T A → Prop
  | .appendCall t data => s.sampled t = none ∧ s.lent data = false
  | .insert _ data => s.lent data = false
  | .appendList items => items.Nodup ∧ (∀ a ∈ items, s.lent a = false) ∧
      linked s.dataQ.next items.head? items = true
  | .write a _ => s.lent a = false
  | .appendLocked _ | .get _ _ | .timeout _ | .cancelWait => True

instance (s : Queue T A) (a : Act T A) : Decidable (Allowed s a) :=
  match a with
  | .appendCall _ _ => inferInstanceAs (Decidable (_ ∧ _))
  | .insert _ _ | .write _ _ => inferInstanceAs (Decidable (_ = false))
  | .appendList _ => inferInstanceAs (Decidable (_ ∧ _ ∧ _))
  | .appendLocked _ | .get _ _ | .timeout _ | .cancelWait => inferInstanceAs (Decidable True)

def insertsAfter (s : Queue T A) : Act T A → Option A
  | .appendLocked t => if s.waitQ = [] then (s.sampled t).bind (·.2) else none
  | .insert prev _ => if s.waitQ = [] then prev else none
  | _ => none

def reaches (next : A → Option A) (node : A) : Nat → Option A → Bool
  | fuel + 1, some p => p = node || reaches next node fuel (next p)
  | _, _ => false

def FreshPrev (s : Queue T A) (a : Act T A) : Prop :=
  ∀ prev ∈ insertsAfter s a, s.dataQ.next prev = none ∨
    reaches s.dataQ.next prev s.inserted.length s.dataQ.head = true

instance (s : Queue T A) (a : Act T A) : Decidable (FreshPrev s a) :=
  inferInstanceAs (Decidable (∀ prev ∈ insertsAfter s a, _ ∨ _))

def initQueue (next : A → Option A) : Queue T A where
  dataQ := sysSlistInit ⟨next, none, none⟩
  waitQ := []
  sampled := fun _ => none
  lent := fun _ => false
  inserted := []
  returned := []

end

open List Option

/-- Every item inserted was returned by one `k_queue_get` or is on the data list, and no other
item was. -/
def Conserved (s : Queue T A) : Prop :=
  ∃ contents, s.dataQ.IsList contents ∧ (s.returned.map Prod.snd ++ contents).Perm s.inserted

structure Inv (contents : List A) (s : Queue T A) : Prop where
  list : s.dataQ.IsList contents
  perm : (s.returned.map Prod.snd ++ contents).Perm s.inserted
  lent : ∀ a ∈ contents, s.lent a = true
  calls : ∀ t data prev, s.sampled t = some (data, prev) → s.lent data = true ∧ data ∉ contents
  apart : ∀ t t' data prev prev', s.sampled t = some (data, prev) →
    s.sampled t' = some (data, prev') → t = t'

variable {s : Queue T A} {contents items : List A} {data : A} {prev : Option A}

theorem Inv.length_le (h : Inv contents s) : contents.length ≤ s.inserted.length := by
  have := h.perm.length_eq
  simp at this
  omega

theorem Inv.not_lent (h : Inv contents s) (hd : s.lent data = false) :
    data ∉ contents ∧ ∀ t p, s.sampled t ≠ some (data, p) := by
  refine ⟨fun hm => ?_, fun t p ht => ?_⟩
  · simp [h.lent data hm] at hd
  · simp [(h.calls t data p ht).1] at hd

variable [DecidableEq A]

theorem reaches_iff {next : A → Option A} {node : A} {p : Option A} {xs : List A} {fuel : Nat}
    (h : Seg next p xs none) (hf : xs.length ≤ fuel) :
    reaches next node fuel p = true ↔ node ∈ xs := by
  induction xs generalizing p fuel with
  | nil =>
    obtain rfl : p = none := h
    cases fuel <;> simp [reaches]
  | cons x xs ih =>
    obtain ⟨fuel, rfl⟩ : ∃ f, fuel = f + 1 := ⟨fuel - 1, by simp at hf; omega⟩
    obtain ⟨rfl, hs⟩ := h
    have hx := ih hs (show xs.length ≤ fuel by simpa using hf)
    rw [reaches, Bool.or_eq_true, decide_eq_true_eq, hx, mem_cons, eq_comm]

variable {a : Act T A}

theorem Inv.freshPrev_iff (h : Inv contents s) [DecidableEq T] :
    FreshPrev s a ↔ ∀ prev ∈ insertsAfter s a, s.dataQ.next prev = none ∨ prev ∈ contents := by
  simp only [FreshPrev, reaches_iff h.list.seg h.length_le]

theorem isList_insert (h : s.dataQ.IsList contents) (hd : data ∉ contents)
    (hp : ∀ p, prev = some p → s.dataQ.next p = none ∨ p ∈ contents) :
    ∃ contents', (sysSlistInsert s.dataQ prev data).IsList contents' ∧
      contents'.Perm (data :: contents) := by
  cases prev with
  | none => exact ⟨_, sysSlistPrepend_isList h hd, .refl _⟩
  | some p =>
    rcases hp p rfl with hn | hm
    · refine ⟨_, ?_, perm_append_singleton _ _⟩
      simp only [sysSlistInsert, hn]
      exact sysSlistAppend_isList h hd
    · obtain ⟨u, v, rfl⟩ := append_of_mem hm
      refine ⟨_, sysSlistInsert_isList h hd, ?_⟩
      rw [show u ++ p :: data :: v = (u ++ [p]) ++ data :: v by simp]
      exact perm_middle.trans (by simp)

theorem Inv.insert (h : Inv contents s) (hd : data ∉ contents)
    (hf : ∀ t p, s.sampled t ≠ some (data, p))
    (hp : s.waitQ = [] → ∀ p, prev = some p → s.dataQ.next p = none ∨ p ∈ contents) :
    ∃ contents', Inv contents' (kQueueInsert s prev data) := by
  have hne : ∀ t d p, s.sampled t = some (d, p) → d ≠ data := by
    rintro t d p ht rfl
    exact hf t p ht
  cases hw : s.waitQ with
  | cons t waitQ =>
    simp only [kQueueInsert, lendItems, hw, prepareThreadToRun]
    refine ⟨contents, h.list, ?_, ?_, ?_, h.apart⟩
    · have := h.perm.append_right [data]
      rw [map_append, append_assoc]
      exact (perm_append_comm.append_left _).trans (by simpa using this)
    · intro a ha
      have hne := ne_of_mem_of_not_mem ha hd
      simp [hne, h.lent a ha]
    · intro t d p ht
      simp [hne t d p ht, h.calls t d p ht]
  | nil =>
    simp only [kQueueInsert, lendItems, hw]
    obtain ⟨contents', hl, hperm⟩ := isList_insert h.list hd (hp hw)
    refine ⟨contents', hl, ?_, ?_, ?_, h.apart⟩
    · have := h.perm.append_right [data]
      refine (hperm.append_left _).trans ?_
      exact perm_middle.trans ((perm_append_singleton _ _).symm.trans this)
    · intro a ha
      rcases mem_cons.mp (hperm.mem_iff.mp ha) with rfl | ha
      · simp
      · simp [h.lent a ha]
    · intro t d p ht
      have := h.calls t d p ht
      simp [hne t d p ht, this, hperm.mem_iff]

theorem Inv.not_conserved_insert (h : Inv contents s) (hd : data ∉ contents) (hw : s.waitQ = [])
    {p : A} (hn : s.dataQ.next p ≠ none) (hp : p ∉ contents) :
    ¬ Conserved (kQueueInsert s (some p) data) := by
  simp only [kQueueInsert, lendItems, hw]
  rintro ⟨_, hl, hperm⟩
  obtain rfl := hl.unique (sysSlistInsert_stale h.list hp hd hn)
  have h1 := h.perm.length_eq
  have h2 := hperm.length_eq
  simp at h1 h2
  omega

theorem handOver_spec (s : Queue T A) (waitQ : List T) {p : Option A}
    (h : Seg s.dataQ.next p items none) :
    ∃ given rest waitQ' lent returned, items = given ++ rest ∧
      handOver s waitQ p = ({ s with waitQ := waitQ', lent, returned }, rest.head?) ∧
      returned.map Prod.snd = s.returned.map Prod.snd ++ given ∧
      (∀ a, a ∉ given → lent a = s.lent a) ∧ Seg s.dataQ.next rest.head? rest none := by
  induction waitQ generalizing s p items with
  | nil =>
    cases items with
    | nil =>
      obtain rfl : p = none := h
      exact ⟨[], [], _, _, _, rfl, rfl, by simp, fun _ _ => rfl, rfl⟩
    | cons x items =>
      obtain ⟨rfl, hs⟩ := h
      exact ⟨[], x :: items, _, _, _, rfl, rfl, by simp, fun _ _ => rfl, rfl, hs⟩
  | cons t waitQ ih =>
    cases items with
    | nil =>
      obtain rfl : p = none := h
      exact ⟨[], [], _, _, _, rfl, rfl, by simp, fun _ _ => rfl, rfl⟩
    | cons x items =>
      obtain ⟨rfl, hs⟩ := h
      obtain ⟨given, rest, _, _, _, rfl, hover, hret, hlent, hseg⟩ :=
        ih (s := prepareThreadToRun s t x) hs
      refine ⟨x :: given, rest, _, _, _, rfl, hover, ?_, ?_, hseg⟩
      · rw [hret]
        simp [prepareThreadToRun]
      · intro a ha
        have hne : a ≠ x := fun he => ha (by simp [he])
        rw [hlent a (fun hm => ha (mem_cons_of_mem x hm))]
        simp [prepareThreadToRun, hne]

theorem lendItems_lent_of_mem {a : A} (ha : a ∈ items) : (lendItems s items).lent a = true :=
  if_pos ha

theorem lendItems_lent_of_not_mem {a : A} (ha : a ∉ items) :
    (lendItems s items).lent a = s.lent a := if_neg ha

theorem Inv.appendList (h : Inv contents s) {head tail : A}
    (ht : items.getLast? = some tail) (hs : Seg s.dataQ.next (some head) items none)
    (hnd : items.Nodup) (hfree : ∀ a ∈ items, s.lent a = false) :
    ∃ contents', Inv contents' (kQueueAppendList s items head tail) := by
  obtain ⟨given, rest, waitQ, lent, returned, hgr, hover, hret, hlent, hseg⟩ :=
    handOver_spec (lendItems s items) s.waitQ hs
  have hoff : ∀ a, s.lent a = true → a ∉ items := fun a ha hm => by simp [hfree a hm] at ha
  have hnd' := nodup_append.mp (hgr ▸ hnd)
  have hcr : (contents ++ rest).Nodup := by
    refine h.list.nodup.append hnd'.2.1 fun a ha hr => hoff a (h.lent a ha) ?_
    simp [hgr, hr]
  have hD : ∃ D, kQueueAppendList s items head tail =
      { lendItems s items with waitQ, lent, returned, dataQ := D } ∧ D.IsList (contents ++ rest) := by
    rw [kQueueAppendList, show handOver _ (lendItems s items).waitQ _ = _ from hover]
    cases rest with
    | nil => exact ⟨_, rfl, by rw [append_nil]; exact h.list⟩
    | cons x rest =>
      refine ⟨_, rfl, sysSlistAppendList_isList (l := s.dataQ) h.list hseg ?_ hcr⟩
      rw [← ht, hgr, getLast?_append_cons]
  obtain ⟨D, he, hl⟩ := hD
  rw [he]
  refine ⟨contents ++ rest, hl, ?_, ?_, ?_, h.apart⟩
  · simp only [hret]
    have hp := h.perm.append_right items
    refine List.Perm.trans ?_ hp
    rw [hgr, append_assoc, append_assoc, ← append_assoc given]
    refine List.Perm.append_left _ ?_
    rw [← append_assoc contents]
    exact (perm_append_comm).append_right rest
  · intro a ha
    dsimp only
    rcases mem_append.mp ha with hc | hr
    · have hi := hoff a (h.lent a hc)
      rw [hlent a (fun hm => hi (by simp [hgr, hm])), lendItems_lent_of_not_mem hi, h.lent a hc]
    · have hg : a ∉ given := fun hm => hnd'.2.2 a hm a hr rfl
      have hi : a ∈ items := by simp [hgr, hr]
      rw [hlent a hg, lendItems_lent_of_mem hi]
  · intro t d p htd
    dsimp only
    obtain ⟨hld, hdc⟩ := h.calls t d p htd
    have hi := hoff d hld
    rw [hlent d (fun hm => hi (by simp [hgr, hm])), lendItems_lent_of_not_mem hi, mem_append, not_or]
    exact ⟨hld, hdc, fun hm => hi (by simp [hgr, hm])⟩

theorem Inv.get (h : Inv contents s) {prio : T → Int} {t : T} {wait : Bool} :
    ∃ contents', Inv contents' (kQueueGet prio s t wait) := by
  cases contents with
  | nil =>
    simp only [kQueueGet, sysSlistGet_nil h.list]
    cases wait
    · exact ⟨[], h⟩
    · exact ⟨[], { h with }⟩
  | cons x contents =>
    obtain ⟨h1, h2, -⟩ := sysSlistGet_cons h.list
    have hg : sysSlistGet s.dataQ = (some x, (sysSlistGet s.dataQ).2) := by rw [← h1]
    have hnd := nodup_cons.mp h.list.nodup
    rw [kQueueGet, hg]
    refine ⟨contents, h2, ?_, ?_, ?_, h.apart⟩
    · simpa [prepareThreadToRun] using h.perm
    · intro a ha
      have hne := ne_of_mem_of_not_mem ha hnd.1
      simp [prepareThreadToRun, hne, h.lent a (by simp [ha])]
    · intro t d p ht
      obtain ⟨hl, hm⟩ := h.calls t d p ht
      simp only [mem_cons, not_or] at hm
      simp [prepareThreadToRun, hm, hl]

variable [DecidableEq T] {t : T} {prio : T → Int} {s' : Queue T A}

theorem Inv.appendCall (h : Inv contents s) (hd : s.lent data = false) : Inv contents { s with
      sampled := update s.sampled t (some (data, s.dataQ.tail))
      lent := update s.lent data true } := by
  obtain ⟨hc, hs⟩ := h.not_lent hd
  have hcase : ∀ t' d p, update s.sampled t (some (data, s.dataQ.tail)) t' = some (d, p) →
      t' = t ∧ d = data ∨ s.sampled t' = some (d, p) := by
    intro t' d p ht
    by_cases htt : t' = t
    · subst htt
      obtain ⟨rfl, -⟩ : data = d ∧ s.dataQ.tail = p := by simpa using ht
      exact .inl ⟨rfl, rfl⟩
    · rw [update_of_ne htt] at ht
      exact .inr ht
  refine ⟨h.list, h.perm, ?_, ?_, ?_⟩
  · intro a ha
    have hne := ne_of_mem_of_not_mem ha hc
    simp [hne, h.lent a ha]
  · intro t' d p ht
    rcases hcase t' d p ht with ⟨-, rfl⟩ | ht
    · simp [hc]
    · have hne : d ≠ data := fun he => hs t' p (he ▸ ht)
      simp [hne, h.calls t' d p ht]
  · intro t₁ t₂ d p₁ p₂ h₁ h₂
    rcases hcase t₁ d p₁ h₁ with ⟨e₁, rfl⟩ | h₁ <;> rcases hcase t₂ _ p₂ h₂ with ⟨e₂, he⟩ | h₂
    · rw [e₁, e₂]
    · exact absurd h₂ (hs t₂ p₂)
    · exact absurd (he ▸ h₁) (hs t₁ p₁)
    · exact h.apart t₁ t₂ d p₁ p₂ h₁ h₂

omit [DecidableEq A] in
theorem Inv.appendLocked (h : Inv contents s) (ht : s.sampled t = some (data, prev)) :
    Inv contents { s with sampled := update s.sampled t none } ∧ data ∉ contents ∧
      ∀ t' p, update s.sampled t none t' ≠ some (data, p) := by
  have hsub : ∀ t' d p, update s.sampled t none t' = some (d, p) →
      s.sampled t' = some (d, p) ∧ t' ≠ t := by
    intro t' d p h'
    by_cases htt : t' = t
    · subst htt
      simp at h'
    · rw [update_of_ne htt] at h'
      exact ⟨h', htt⟩
  refine ⟨⟨h.list, h.perm, h.lent, ?_, ?_⟩, (h.calls t data prev ht).2, ?_⟩
  · exact fun t' d p h' => h.calls t' d p (hsub t' d p h').1
  · exact fun t₁ t₂ d p₁ p₂ h₁ h₂ => h.apart t₁ t₂ d p₁ p₂ (hsub t₁ d p₁ h₁).1 (hsub t₂ d p₂ h₂).1
  · intro t' p h'
    obtain ⟨h₁, hne⟩ := hsub t' data p h'
    exact hne (h.apart t' t data p prev h₁ ht)

theorem Inv.step (h : Inv contents s) (ha : Allowed s a)
    (hf : FreshPrev s a) (hs : step prio s a = some s') : ∃ contents', Inv contents' s' := by
  rw [h.freshPrev_iff] at hf
  cases a with
  | appendCall t data =>
    cases hs
    exact ⟨contents, h.appendCall ha.2⟩
  | appendLocked t =>
    obtain ⟨⟨data, prev⟩, ht, rfl⟩ := map_eq_some_iff.mp hs
    obtain ⟨h', hd, hother⟩ := h.appendLocked ht
    refine h'.insert hd hother fun hw p hp => ?_
    exact hf p (by simpa [insertsAfter, ht, show s.waitQ = [] from hw] using hp)
  | insert prev data =>
    cases hs
    obtain ⟨hd, hother⟩ := h.not_lent ha
    refine h.insert hd hother fun hw p hp => ?_
    exact hf p (by simpa [insertsAfter, hw] using hp)
  | appendList items =>
    obtain ⟨hnd, hfree, hl⟩ := ha
    cases items with
    | nil => simp [KQueue.step] at hs
    | cons x items =>
      obtain ⟨tail, ht⟩ : ∃ tail, (x :: items).getLast? = some tail :=
        ⟨_, getLast?_eq_some_getLast (cons_ne_nil x items)⟩
      simp only [KQueue.step, head?_cons, ht, some.injEq] at hs
      subst hs
      exact h.appendList ht (linked_iff.mp hl) hnd hfree
  | get t wait =>
    cases hs
    exact h.get
  | timeout t =>
    cases hs
    exact ⟨contents, { h with }⟩
  | cancelWait =>
    cases hs
    exact ⟨contents, { h with }⟩
  | write a next =>
    cases hs
    have hl := h.list.frame (update_off (q := next) (h.not_lent ha).1)
    exact ⟨contents, { h with list := hl }⟩

theorem Inv.not_conserved (h : Inv contents s) (ha : Allowed s a)
    (hf : ¬ FreshPrev s a) (hs : KQueue.step prio s a = some s') : ¬ Conserved s' := by
  rw [h.freshPrev_iff] at hf
  push Not at hf
  obtain ⟨p, hp, hn, hm⟩ := hf
  cases a with
  | appendLocked t =>
    obtain ⟨⟨data, prev⟩, ht, rfl⟩ := map_eq_some_iff.mp hs
    obtain ⟨h', hd, -⟩ := h.appendLocked ht
    by_cases hw : s.waitQ = []
    · obtain rfl : prev = some p := by simpa [insertsAfter, ht, hw] using hp
      exact h'.not_conserved_insert hd hw hn hm
    · simp [insertsAfter, hw] at hp
  | insert prev data =>
    cases hs
    by_cases hw : s.waitQ = []
    · obtain rfl : prev = some p := by simpa [insertsAfter, hw] using hp
      exact h.not_conserved_insert (h.not_lent ha).1 hw hn hm
    · simp [insertsAfter, hw] at hp
  | _ => simp [insertsAfter] at hp

/-- In every run whose insertions all come after nodes that end a list or are still on the data
list, no item is lost, returned twice or invented; and the next step keeps this exactly when it
meets the condition as well. -/
theorem queue_items_conserved (next : A → Option A)
    (h : GuardedRun (step prio) (fun s a => Allowed s a ∧ FreshPrev s a) (initQueue next) s) :
    Conserved s ∧ ∀ a s', Allowed s a → step prio s a = some s' →
      (Conserved s' ↔ FreshPrev s a) := by
  obtain ⟨contents, hi⟩ : ∃ contents, Inv contents s := by
    refine h.invariant (P := fun s => ∃ contents, Inv contents s) ?_ ?_
    · rintro s a s' ⟨contents, hi⟩ ⟨ha, hf⟩ hs
      exact hi.step ha hf hs
    · exact ⟨[], sysSlistInit_isList _, .refl _, by simp, by simp [initQueue], by simp [initQueue]⟩
  refine ⟨⟨contents, hi.list, hi.perm⟩, fun a s' ha hs => ⟨fun hc => ?_, fun hf => ?_⟩⟩
  · by_contra hf
    exact hi.not_conserved ha hf hs hc
  · obtain ⟨contents', hi'⟩ := hi.step ha hf hs
    exact ⟨contents', hi'.list, hi'.perm⟩

/-- Caller 1 has read the tail, item 10, when item 20 is appended and item 10 returned. Its own
item 30 is then linked behind item 10, and is neither returned nor on the data list. -/
theorem append_after_dequeued_tail_loses_item : ∃ s₁ s₂ s₃ : Queue Nat Nat,
      [Act.insert none 10, .appendCall 1 30, .appendCall 2 20, .appendLocked 2,
        .get 3 false].foldlM (step fun _ => 0) (initQueue fun _ => none) = some s₁ ∧
      s₁.sampled 1 = some (30, some 10) ∧
      step (fun _ => 0) s₁ (.appendLocked 1) = some s₂ ∧ ¬ Conserved s₂ ∧
      step (fun _ => 0) s₂ (.get 3 false) = some s₃ ∧ s₃.inserted = [10, 20, 30] ∧
      s₃.returned = [(3, 10), (3, 20)] ∧ s₃.dataQ.head = none := by
  refine ⟨_, _, _, rfl, rfl, rfl, ?_, rfl, rfl, rfl, rfl⟩
  rintro ⟨contents, hl, hp⟩
  have hc : contents = [20] := hl.seg.unique ⟨rfl, rfl⟩
  subst hc
  exact absurd hp.length_eq (by decide)

theorem queue_items_conserved_middle :
    ∃ s, [Act.appendCall 1 10, .appendLocked 1, .appendCall 1 30, .appendCall 2 20,
        .appendLocked 2, .appendLocked 1, .get 3 true, .write 10 (some 40), .appendList [10, 40],
        .get 3 true].foldlM (step fun _ => 0) (initQueue fun _ => none) = some s ∧
      s.returned = [((3 : Nat), (10 : Nat)), (3, 30)] ∧ Conserved s := by
  obtain ⟨hc, -⟩ := queue_items_conserved (s := _) (fun _ : Nat => none)
    (GuardedRun.of_foldlM (step fun _ : Nat => 0) _ [.appendCall 1 10, .appendLocked 1,
      .appendCall 1 30, .appendCall 2 20, .appendLocked 2, .appendLocked 1, .get 3 true,
      .write 10 (some 40), .appendList [10, 40], .get 3 true] rfl)
  exact ⟨_, rfl, rfl, hc⟩

end Zephyr.KQueue
