import Zephyr.TimeoutQueue
import Zephyr.Run

/-! Runs of the timeout queue. A timeout is moved to the expired list at the tick it is due, and
stays there until it is delivered or cancelled, as long as cancelling spares the walk. The walk of
`_timeout_remaining_get` stops only at the timeout it looks for, which is not on its way there. -/

namespace Zephyr.Timeout

open Function List Option

variable {T : Type} [DecidableEq T]

/-- The parts of the invariant that do not depend on where the clock interrupt is: `running` is
whether it runs at all, `strict` whether every due timeout has been moved. -/
structure Core (kind : T → Kind) (running strict : Prop) (qs es : List T) (k : Kernel T) : Prop where
  lists : Lists qs es running k.links k.delta k.deadline k.tickCount
  ahead : strict → ∀ t ∈ qs, k.tickCount < k.deadline t
  due : ∀ t ∈ es, k.deadline t = k.tickCount
  owed : ∀ t, k.owed t = true ↔ t ∈ es
  spurious : k.spurious = []
  adds : qs.length ≤ k.adds
  period : ∀ t, Ticks (k.period t)
  detached : ∀ t, kind t = .work → k.workQ t = false ∨ t ∈ k.submitted → t ∉ qs ∧ t ∉ es
  submitted : k.submitted.Nodup
  pending : ∀ t ∈ k.submitted, k.pending t = true ∧ k.workQ t = true

structure Inv (kind : T → Kind) (qs es : List T) (k : Kernel T) : Prop where
  core : Core kind (k.phase ≠ .idle) (k.phase ≠ .dequeue) qs es k
  next : ∀ n, k.phase = .handler n → n = es.head?.map .timeout

variable {kind : T → Kind} {running strict : Prop} {qs es u v : List T} {k : Kernel T} {t : T}
  {ticks : Int}

theorem Core.insert (h : Core kind running strict qs es k) (hq : t ∉ qs) (he : t ∉ es)
    (hpos : 0 < ticks) (hlt : ticks < 2 ^ 31)
    (hw : kind t = .work → k.workQ t = true ∧ t ∉ k.submitted) :
    ∃ qs' k', insertTimeout k t ticks = some k' ∧ Core kind running strict qs' es k' ∧
      k'.phase = k.phase ∧ qs ⊆ qs' := by
  obtain ⟨u, v, _, _, hqs, hi, hl⟩ := h.lists.insert hq he hpos hlt h.adds
  subst hqs
  have hmem : ∀ x, x ∈ u ++ t :: v ↔ x = t ∨ x ∈ u ++ v := by
    intro x
    simp only [mem_append, mem_cons]
    tauto
  have hdl : ∀ x, x ≠ t → update k.deadline t (k.tickCount + ticks) x = k.deadline x :=
    fun x hx => update_of_ne hx _ _
  refine ⟨u ++ t :: v, _, hi, { h with
    lists := hl, ahead := ?_, due := ?_, adds := ?_, detached := ?_ }, rfl,
    fun x hx => (hmem x).mpr (.inr hx)⟩
  · intro hs x hx
    rcases (hmem x).mp hx with rfl | hx
    · simp only [update_self]
      omega
    · simpa only [hdl x (ne_of_mem_of_not_mem hx hq)] using h.ahead hs x hx
  · intro x hx
    simpa only [hdl x (ne_of_mem_of_not_mem hx he)] using h.due x hx
  · have := h.adds
    simp only [length_append, length_cons] at this ⊢
    omega
  · intro x hx hor
    have hxt : x ≠ t := by
      rintro rfl
      obtain ⟨h1, h2⟩ := hw hx
      rcases hor with hor | hor
      · simp [h1] at hor
      · exact h2 hor
    obtain ⟨h1, h2⟩ := h.detached x hx hor
    exact ⟨fun hm => ((hmem x).mp hm).elim hxt h1, h2⟩

theorem abortTimeout_frame (k : Kernel T) (t : T) : abortTimeout k t = { k with
    links := (abortTimeout k t).links, delta := (abortTimeout k t).delta,
    owed := (abortTimeout k t).owed } := by
  unfold abortTimeout
  split_ifs
  · rfl
  · rfl
  · split <;> rfl

theorem Core.shrink (h : Core kind running strict qs es k) {qs' : List T}
    {links' : Links (Node T)} {delta' : Node T → Int}
    (hl : Lists qs' (es.erase t) running links' delta' k.deadline k.tickCount) (hq : qs' ⊆ qs)
    (hlen : qs'.length ≤ qs.length) : Core kind running strict qs' (es.erase t)
      { k with links := links', delta := delta', owed := update k.owed t false } := by
  refine { h with
    lists := hl, ahead := fun hs x hx => h.ahead hs x (hq hx)
    due := fun x hx => h.due x (mem_of_mem_erase hx), owed := ?_
    adds := hlen.trans h.adds, detached := ?_ }
  · intro x
    rw [h.lists.expired_nodup.mem_erase_iff, ← h.owed x]
    by_cases hx : x = t
    · subst hx
      simp
    · simp [hx]
  · intro x hx hor
    obtain ⟨h1, h2⟩ := h.detached x hx hor
    exact ⟨fun hm => h1 (hq hm), fun hm => h2 (mem_of_mem_erase hm)⟩

theorem Core.abort (h : Core kind running strict qs es k) (hlast : t ∈ es → es.getLast? = some t) :
    ∃ qs', Core kind running strict qs' (es.erase t) (abortTimeout k t) ∧
      t ∉ qs' ∧ t ∉ es.erase t ∧ (∀ x ∈ qs, x ∈ qs' ∨ x = t) ∧
      (t ∈ es → ∀ x, x ≠ t → (abortTimeout k t).delta (.timeout x) = k.delta (.timeout x)) := by
  have hter := h.lists.expired_nodup.not_mem_erase (a := t)
  by_cases hq : t ∈ qs
  · have hte := h.lists.apart hq
    obtain ⟨u, v, rfl⟩ := append_of_mem hq
    have hnd := h.lists.queue_nodup
    rw [nodup_middle, nodup_cons] at hnd
    obtain ⟨links', delta', ha, hl⟩ := h.lists.abort_queued rfl
    rw [← erase_of_not_mem hte] at hl
    rw [ha]
    refine ⟨u ++ v, h.shrink hl ?_ (by simp), hnd.1, hter, ?_, fun hm => absurd hm hte⟩
    · intro x hx
      simp only [mem_append] at hx ⊢
      tauto
    · intro x hx
      simp only [mem_append, mem_cons] at hx ⊢
      tauto
  · by_cases he : t ∈ es
    · obtain ⟨w, rfl⟩ := getLast?_eq_some_iff.mp (hlast he)
      have htw : t ∉ w := fun hw =>
        disjoint_of_nodup_append h.lists.expired_nodup hw (by simp)
      obtain ⟨links', delta', ha, hl, hd⟩ := h.lists.abort_expired rfl
      have her : (w ++ [t]).erase t = w := by simp [erase_append_right _ htw]
      rw [← her] at hl
      rw [ha]
      exact ⟨qs, h.shrink hl (fun _ hx => hx) le_rfl, hq, hter, fun x hx => .inl hx, fun _ => hd⟩
    · rw [erase_of_not_mem he, h.lists.abort_off hq he]
      exact ⟨qs, h, hq, he, fun x hx => .inl hx, fun hm => absurd hm he⟩

theorem Core.workSubmit (h : Core kind running strict qs es k) (hq : t ∉ qs) (he : t ∉ es)
    (hw : k.workQ t = true) : Core kind running strict qs es (kWorkSubmitToQueue k t) := by
  unfold kWorkSubmitToQueue
  split_ifs with hp
  · exact h
  · have hns : t ∉ k.submitted := fun hs => hp (h.pending t hs).1
    refine { h with detached := ?_, submitted := ?_, pending := ?_ }
    · intro x hx hor
      simp only [mem_append, mem_singleton] at hor
      rcases hor with hor | hor | rfl
      · exact h.detached x hx (.inl hor)
      · exact h.detached x hx (.inr hor)
      · exact ⟨hq, he⟩
    · simpa [nodup_append, h.submitted] using fun x hx => ne_of_mem_of_not_mem hx hns
    · intro x hx
      by_cases hxt : x = t
      · subst hxt
        simp [hw]
      · simpa [hxt] using h.pending x (by simpa [hxt] using hx)

theorem Core.handleOne (h : Core kind running strict qs es (k.setDelta (.timeout t) inactive))
    (hq : t ∉ qs) (he : t ∉ es) (hw : kind t = .work → k.workQ t = true) :
    ∃ qs' k', handleOneExpiredTimeout kind k t = some k' ∧ Core kind running strict qs' es k' ∧
      k'.phase = k.phase ∧ qs ⊆ qs' := by
  unfold handleOneExpiredTimeout
  cases hk : kind t with
  | thread => exact ⟨qs, _, rfl, h, rfl, fun _ hx => hx⟩
  | work =>
    refine ⟨qs, _, rfl, h.workSubmit hq he (hw hk), ?_, fun _ hx => hx⟩
    unfold kWorkSubmitToQueue
    split_ifs <;> rfl
  | timer =>
    dsimp only
    split_ifs with hp
    · obtain ⟨qs', _, hi, hc, hph, hsub⟩ := h.insert hq he hp (h.period t).2 (by simp [hk])
      rw [hi]
      exact ⟨qs', _, rfl, { hc with }, hph, hsub⟩
    · exact ⟨qs, _, rfl, { h with }, rfl, fun _ hx => hx⟩

theorem setDelta_inactive (h : k.delta (.timeout t) = inactive) :
    k.setDelta (.timeout t) inactive = k := by
  have hd : update k.delta (.timeout t) (s32 inactive) = k.delta := by
    rw [s32_eq (by decide) (by decide), ← h, update_eq_self]
  simp only [Kernel.setDelta, hd]

theorem Core.add (h : Core kind running strict qs es k) (hq : t ∉ qs) (he : t ∉ es)
    (ht : Ticks ticks) (hw : kind t = .work → k.workQ t = true ∧ t ∉ k.submitted) :
    ∃ qs' k', addTimeout kind k t ticks = some k' ∧ Core kind running strict qs' es k' ∧
      k'.phase = k.phase ∧ qs ⊆ qs' := by
  unfold addTimeout
  split_ifs with h0
  · refine Core.handleOne ?_ hq he (fun hk => (hw hk).1)
    rwa [setDelta_inactive (h.lists.off t hq he)]
  · exact h.insert hq he (by have := ht.1; omega) ht.2 hw

omit [DecidableEq T] in
theorem Core.mono (h : Core kind running strict qs es k) (running' strict' : Prop)
    (hr : running' → running) (he : ¬ running' → es = []) (hs : strict' → strict) :
    Core kind running' strict' qs es k :=
  { h with
    lists := { h.lists with rings := h.lists.rings.mono (fun _ hi ht => hr (hi ht)), stopped := he }
    ahead := fun hst => h.ahead (hs hst) }

theorem Core.walk (h : Core kind True True qs es k) :
    ∃ qs' k', handleExpiredTimeout kind k (es.head?.map .timeout) = some k' ∧
      Inv kind qs' es.tail k' ∧ qs ⊆ qs' := by
  cases es with
  | nil =>
    refine ⟨qs, _, rfl, ⟨?_, by simp⟩, fun _ hx => hx⟩
    have hc := h.mono False True False.elim (fun _ => rfl) id
    exact { hc with lists := by simpa using hc.lists, ahead := fun _ => hc.ahead trivial }
  | cons t es =>
    have hte : t ∈ t :: es := by simp
    have htq : t ∉ qs := fun hq => h.lists.apart hq hte
    have hnext := peekNext_timeout (u := []) (h.lists.expired_ring trivial)
    have hl := h.lists.handle rfl
    rw [← erase_cons_head (a := t) (l := es)] at hl
    have hc := h.shrink hl (fun _ hx => hx) le_rfl
    rw [erase_cons_head] at hc
    have hw : kind t = .work → k.workQ t = true := by
      intro hk
      by_contra hw
      exact (h.detached t hk (.inl (by simpa using hw))).2 hte
    have hoff : Core kind True True qs es ({ k with
        links := sysDlistRemove k.links (.timeout t),
        owed := update k.owed t false }.setDelta (.timeout t) inactive) := by
      exact hc
    obtain ⟨qs', k', hk, hc', hph, hsub⟩ := hoff.handleOne htq h.lists.expired_nodup.notMem hw
    refine ⟨qs', { k' with phase := .handler (es.head?.map .timeout) }, ?_, ⟨?_, ?_⟩, hsub⟩
    · simp only [head?_cons, map_some, handleExpiredTimeout, (h.owed t).mpr hte, if_true, hnext]
      rw [hk]
      rfl
    · have hm := hc'.mono True True id (by simp) id
      exact { hm with lists := by simpa using hm.lists, ahead := fun _ => hm.ahead trivial }
    · intro n hn
      exact (Phase.handler.inj hn).symm

omit [DecidableEq T] in
theorem Core.exit (h : Core kind running strict qs es k)
    (hd : ∀ t ∈ qs.head?, k.delta (.timeout t) ≠ 0) : Core kind running True qs es k := by
  refine { h with ahead := fun _ x hx => ?_ }
  cases qs with
  | nil => simp at hx
  | cons t v =>
    obtain ⟨h1, h2, h3⟩ := h.lists.deltas
    have h4 := hd t (by simp)
    have h5 : k.tickCount < k.deadline t := by
      simp only [comp_apply] at h1 h2
      omega
    rcases mem_cons.mp hx with rfl | hx
    · exact h5
    · have := h3.base_le x hx
      omega

theorem Core.dequeue (h : Core kind True False qs es k) :
    ∃ qs' es' k', dequeueTimeout kind k = some k' ∧ Inv kind qs' es' k' ∧
      ∀ x ∈ qs, x ∈ qs' ∨ x ∈ es' := by
  have hexp := sysDlistPeekHead_ring (h.lists.expired_ring trivial)
  have hwalk : (∀ t ∈ qs.head?, k.delta (.timeout t) ≠ 0) →
      ∃ qs' es' k', handleExpiredTimeout kind k (sysDlistPeekHead k.links .expired) = some k' ∧
        Inv kind qs' es' k' ∧ ∀ x ∈ qs, x ∈ qs' ∨ x ∈ es' := by
    intro hd
    obtain ⟨qs', k', hk, hi, hsub⟩ := (h.exit hd).walk
    rw [hexp, head?_map]
    exact ⟨qs', es.tail, k', hk, hi, fun x hx => .inl (hsub hx)⟩
  unfold dequeueTimeout
  rw [sysDlistPeekHead_ring h.lists.queue_ring, head?_map]
  cases qs with
  | nil => exact hwalk (by simp)
  | cons t v =>
    dsimp only [head?_cons, map_some]
    split_ifs with hz
    · obtain ⟨hdue, hl⟩ := h.lists.dequeue rfl trivial hz
      refine ⟨v, t :: es, _, rfl, ⟨{ h with
        lists := ?_, ahead := ?_, due := ?_, owed := ?_, adds := ?_, detached := ?_ }, ?_⟩, ?_⟩
      · simpa [Kernel.setDelta, s32_eq (x := expiredMark) (by decide) (by decide)] using hl
      · intro hs
        exact absurd rfl hs
      · intro x hx
        rcases mem_cons.mp hx with rfl | hx
        · exact hdue
        · exact h.due x hx
      · intro x
        by_cases hxt : x = t
        · subst hxt
          simp [Kernel.setDelta]
        · simpa [Kernel.setDelta, hxt] using h.owed x
      · have := h.adds
        simp only [length_cons, Kernel.setDelta] at this ⊢
        omega
      · intro x hx hor
        obtain ⟨h1, h2⟩ := h.detached x hx hor
        simp only [mem_cons, not_or] at h1 ⊢
        exact ⟨h1.2, h1.1, h2⟩
      · intro n hn
        cases hn
      · intro x hx
        rcases mem_cons.mp hx with rfl | hx
        · exact .inr (by simp)
        · exact .inl hx
    · exact hwalk (by simpa using hz)

theorem Inv.announce (h : Inv kind qs es k) (hph : k.phase = .idle) (ht : Ticks ticks)
    (ha : announceable k ticks = true) :
    ∃ qs' es' k', tickAnnounce kind k ticks = some k' ∧ Inv kind qs' es' k' ∧
      ∀ x ∈ qs, x ∈ qs' ∨ x ∈ es' := by
  have hc := h.core
  obtain rfl : es = [] := hc.lists.stopped (by simp [hph])
  have hl : Lists qs [] False k.links k.delta k.deadline k.tickCount := by
    simpa [hph] using hc.lists
  have hring := hl.queue_ring
  unfold tickAnnounce
  dsimp only
  cases qs with
  | nil =>
    have hn := hl.announce False k.delta ht.1 (by simp) (by simp)
    rw [sysDlistPeekHead_ring hn.queue_ring]
    exact ⟨[], [], _, rfl, ⟨{ hc with
      lists := by simpa [hph] using hn, ahead := by simp, due := by simp }, by simp [hph]⟩, by simp⟩
  | cons t v =>
    have hahead := hc.ahead (by simp [hph]) t (by simp)
    have hlt := hl.delta_lt (u := []) rfl
    have hd := hl.deltas.1
    simp only [comp_apply] at hd
    have hle : ticks ≤ k.delta (.timeout t) := by
      rw [announceable, sysDlistPeekHead_ring hring] at ha
      rcases Bool.or_eq_true_iff.mp ha with h1 | h1
      · have := of_decide_eq_true h1
        omega
      · simpa using h1
    have h0 := ht.1
    have hself := setDelta_delta_self (k := k) (.timeout t) (d := k.delta (.timeout t) - ticks)
      (by omega) (by omega)
    have hn := hl.announce True (k.setDelta (.timeout t) (k.delta (.timeout t) - ticks)).delta ht.1
      (fun x hx => by
        obtain rfl : t = x := by simpa using hx
        exact ⟨hself, hle⟩)
      (fun x hx => setDelta_delta_of_ne (by simpa [eq_comm] using hx) _)
    rw [sysDlistPeekHead_ring hn.queue_ring]
    exact Core.dequeue { hc with lists := hn, ahead := fun hf => hf.elim, due := by simp }

omit [DecidableEq T] in
theorem Inv.of_core (h : Inv kind qs es k) {qs' : List T} {k' : Kernel T}
    (hc : Core kind (k.phase ≠ .idle) (k.phase ≠ .dequeue) qs' es k') (hph : k'.phase = k.phase) :
    Inv kind qs' es k' := by
  rw [← hph] at hc
  exact ⟨hc, fun n hn => h.next n (hph ▸ hn)⟩

def abortTarget (k : Kernel T) : Act T → Option T
  | .abort t => some t
  | .timerStart t _ _ => some t
  | .timerStop t => some t
  | .workSubmit t _ => if k.workQ t = true ∧ k.pending t = false then some t else none
  | .workCancel t => if k.workQ t = true ∧ k.pending t = false then some t else none
  | _ => none

def Spared (k : Kernel T) (t : T) : Prop :=
  k.delta (.timeout t) = expiredMark →
    sysDlistPeekTail k.links .expired = some (.timeout t) ∧ k.phase ≠ .handler (some (.timeout t))

/-- An expired timeout is aborted only from the end of the expired list, and not when it is the
one the walk has saved as `next`. -/
def SparesWalk (k : Kernel T) (a : Act T) : Prop :=
  ∀ t ∈ abortTarget k a, k.delta (.timeout t) = expiredMark →
    sysDlistPeekTail k.links .expired = some (.timeout t) ∧ k.phase ≠ .handler (some (.timeout t))

instance (k : Kernel T) (a : Act T) : Decidable (SparesWalk k a) :=
  inferInstanceAs (Decidable (∀ t ∈ abortTarget k a, _ → _ ∧ _))

theorem Inv.abort (h : Inv kind qs es k) (hg : Spared k t) :
    ∃ qs', Inv kind qs' (es.erase t) (abortTimeout k t) ∧
      t ∉ qs' ∧ t ∉ es.erase t ∧ (∀ x ∈ qs, x ∈ qs' ∨ x = t) ∧
      (t ∈ es → ∀ x, x ≠ t → (abortTimeout k t).delta (.timeout x) = k.delta (.timeout x)) := by
  have hl := h.core.lists
  have hlast : t ∈ es → es.getLast? = some t := by
    intro he
    have ht := (hg (hl.marked t he)).1
    rw [sysDlistPeekTail_ring (hl.expired_ring (hl.running_of_mem he)), getLast?_map] at ht
    obtain ⟨x, hx, hxt⟩ := map_eq_some_iff.mp ht
    rw [hx, Node.timeout.inj hxt]
  obtain ⟨qs', hc, hq, he, hsub, hd⟩ := h.core.abort hlast
  have hph : (abortTimeout k t).phase = k.phase := by rw [abortTimeout_frame]
  refine ⟨qs', ⟨by rwa [hph], ?_⟩, hq, he, hsub, hd⟩
  intro n hn
  rw [hph] at hn
  rw [h.next n hn]
  cases es with
  | nil => rfl
  | cons x es =>
    by_cases hxt : x = t
    · subst hxt
      have hne := (hg (hl.marked x (by simp))).2
      rw [hn, h.next n hn] at hne
      simp at hne
    · rw [erase_cons_tail (by simpa using hxt)]
      rfl

theorem Inv.timerStart (h : Inv kind qs es k) (hk : kind t = .timer) {duration period : Int}
    (hd : Ticks duration) (hp : Ticks period) (hg : Spared k t) :
    ∃ qs' k', kTimerStart kind k t duration period = some k' ∧ Inv kind qs' (es.erase t) k' ∧
      ∀ x ∈ qs, x ∈ qs' ∨ x = t := by
  obtain ⟨qs₁, hi, hq, he, hsub, -⟩ := h.abort hg
  have hab : (if k.delta (.timeout t) ≠ inactive then abortTimeout k t else k) =
      abortTimeout k t := by
    split_ifs with ha
    · rfl
    · rw [abortTimeout, if_pos (by simpa using ha)]
  have hc := hi.core
  have hc' : Core kind ((abortTimeout k t).phase ≠ .idle) ((abortTimeout k t).phase ≠ .dequeue)
      qs₁ (es.erase t) { abortTimeout k t with
        period := update (abortTimeout k t).period t period,
        status := update (abortTimeout k t).status t 0 } := by
    refine { hc with period := fun x => ?_ }
    by_cases hx : x = t
    · subst hx
      simpa using hp
    · simpa [hx] using hc.period x
  obtain ⟨qs', k', hk', hc'', hph, hsub'⟩ := hc'.add hq he hd (by simp [hk])
  refine ⟨qs', k', ?_, hi.of_core hc'' hph, fun x hx => (hsub x hx).imp_left (hsub' ·)⟩
  rw [kTimerStart, hab]
  exact hk'

theorem Core.setWorkQ (h : Core kind running strict qs es k) {b : Bool}
    (hb : b = false → t ∉ qs ∧ t ∉ es ∧ t ∉ k.submitted) :
    Core kind running strict qs es { k with workQ := update k.workQ t b } := by
  refine { h with detached := ?_, pending := ?_ }
  · intro x hx hor
    by_cases hxt : x = t
    · subst hxt
      rcases hor with hor | hor
      · obtain ⟨hq, he, -⟩ := hb (by simpa using hor)
        exact ⟨hq, he⟩
      · exact h.detached x hx (.inr hor)
    · exact h.detached x hx (by simpa [hxt] using hor)
  · intro x hx
    by_cases hxt : x = t
    · subst hxt
      have hbt : b = true := Bool.of_not_eq_false fun hf => (hb hf).2.2 hx
      simpa [hbt] using (h.pending x hx).1
    · simpa [hxt] using h.pending x hx

theorem Core.unsubmit (h : Core kind running strict qs es k) :
    Core kind running strict qs es { k with submitted := k.submitted.erase t } := by
  refine { h with
    detached := ?_, submitted := h.submitted.erase t
    pending := fun x hx => h.pending x (mem_of_mem_erase hx) }
  rintro x hx (hor | hor)
  · exact h.detached x hx (.inl hor)
  · exact h.detached x hx (.inr (mem_of_mem_erase hor))

theorem Inv.workCancel (h : Inv kind qs es k) (hk : kind t = .work)
    (hg : k.workQ t = true → k.pending t = false → Spared k t) :
    ∃ qs' es', Inv kind qs' es' (kDelayedWorkCancel k t).1 ∧ ((kDelayedWorkCancel k t).2 = true →
        t ∉ qs' ∧ t ∉ es' ∧ t ∉ (kDelayedWorkCancel k t).1.submitted) ∧
      ∀ x ∈ qs, x ∈ qs' ∨ x = t ∧ k.workQ t = true ∧ k.pending t = false := by
  unfold kDelayedWorkCancel
  split_ifs with hw hp hs
  · exact ⟨qs, es, h, by simp, fun x hx => .inl hx⟩
  · obtain ⟨hq, he⟩ := h.core.detached t hk (.inr hs)
    have hns : t ∉ k.submitted.erase t := fun hm => (h.core.submitted.mem_erase_iff.mp hm).1 rfl
    have hoff := And.intro hq (And.intro he hns)
    exact ⟨qs, es, h.of_core (h.core.unsubmit.setWorkQ fun _ => hoff) rfl, fun _ => hoff, fun x hx => .inl hx⟩
  · exact ⟨qs, es, h, by simp, fun x hx => .inl hx⟩
  · have hw' : k.workQ t = true := by simpa using hw
    have hp' : k.pending t = false := by simpa using hp
    obtain ⟨qs', hi, hq, he, hsub, -⟩ := h.abort (hg hw' hp')
    have hns : t ∉ (abortTimeout k t).submitted := by
      rw [abortTimeout_frame]
      exact fun hm => hp (h.core.pending t hm).1
    have hoff := And.intro hq (And.intro he hns)
    refine ⟨qs', es.erase t, hi.of_core (hi.core.setWorkQ fun _ => hoff) rfl, fun _ => hoff, ?_⟩
    exact fun x hx => (hsub x hx).imp id fun hxt => ⟨hxt, hw', hp'⟩

theorem Inv.workSubmit (h : Inv kind qs es k) (hk : kind t = .work) (ht : Ticks ticks)
    (hg : k.workQ t = true → k.pending t = false → Spared k t) :
    ∃ qs' es' k', kDelayedWorkSubmitToQueue kind k t ticks = some k' ∧ Inv kind qs' es' k' ∧
      ∀ x ∈ qs, x ∈ qs' ∨ x = t ∧ k.workQ t = true ∧ k.pending t = false := by
  have hcancel : ∃ qs₁ es₁ r, (if k.workQ t then kDelayedWorkCancel k t else (k, true)) = r ∧
      Inv kind qs₁ es₁ r.1 ∧ (r.2 = true → t ∉ qs₁ ∧ t ∉ es₁ ∧ t ∉ r.1.submitted) ∧
      ∀ x ∈ qs, x ∈ qs₁ ∨ x = t ∧ k.workQ t = true ∧ k.pending t = false := by
    split_ifs with hw
    · obtain ⟨qs₁, es₁, hi, hok, hsub⟩ := h.workCancel hk hg
      exact ⟨qs₁, es₁, _, rfl, hi, hok, hsub⟩
    · have hw' : k.workQ t = false := by simpa using hw
      obtain ⟨hq, he⟩ := h.core.detached t hk (.inl hw')
      have hns : t ∉ k.submitted := fun hs => hw (h.core.pending t hs).2
      exact ⟨qs, es, _, rfl, h, fun _ => ⟨hq, he, hns⟩, fun x hx => .inl hx⟩
  obtain ⟨qs₁, es₁, ⟨k₁, ok⟩, hr, hi, hok, hsub⟩ := hcancel
  unfold kDelayedWorkSubmitToQueue
  rw [hr]
  dsimp only at hi hok ⊢
  cases ok with
  | false => exact ⟨qs₁, es₁, k₁, rfl, hi, hsub⟩
  | true =>
    obtain ⟨hq, he, hns⟩ := hok rfl
    have hc := hi.core.setWorkQ (t := t) (b := true) nofun
    rw [if_pos rfl]
    split_ifs with h0
    · refine ⟨qs₁, es₁, _, rfl, hi.of_core (hc.workSubmit hq he (by simp)) ?_, hsub⟩
      unfold kWorkSubmitToQueue
      split_ifs <;> rfl
    · obtain ⟨qs', k', hk', hc', hph, hsub'⟩ := hc.add hq he ht (fun _ => ⟨by simp, hns⟩)
      refine ⟨qs', es₁, k', hk', hi.of_core hc' hph, fun x hx => ?_⟩
      exact (hsub x hx).imp_left (hsub' ·)

theorem Inv.workNext (h : Inv kind qs es k) : Inv kind qs es (workQMain k) := by
  unfold workQMain
  cases hs : k.submitted with
  | nil => exact h
  | cons t ts =>
    have hc := h.core
    have hnd := nodup_cons.mp (hs ▸ hc.submitted)
    refine h.of_core { hc with detached := ?_, submitted := hnd.2, pending := ?_ } rfl
    · rintro x hx (hor | hor)
      · exact hc.detached x hx (.inl hor)
      · exact hc.detached x hx (.inr (by simp [hs, hor]))
    · intro x hx
      simpa [ne_of_mem_of_not_mem hx hnd.1] using hc.pending x (by simp [hs, hx])

theorem Inv.step (h : Inv kind qs es k) {a : Act T} (hg : SparesWalk k a) {k' : Kernel T}
    (hs : step kind k a = some k') :
    ∃ qs' es', Inv kind qs' es' k' ∧ ∀ x ∈ qs, x ∈ qs' ∨ x ∈ es' ∨ abortTarget k a = some x := by
  cases a with
  | announce ticks =>
    simp only [Timeout.step] at hs
    split_ifs at hs with hc
    obtain ⟨qs', es', k₁, hk, hi, hsub⟩ := h.announce hc.1 hc.2.1 hc.2.2
    cases hk.symm.trans hs
    exact ⟨qs', es', hi, fun x hx => (hsub x hx).imp id .inl⟩
  | dequeue =>
    simp only [Timeout.step] at hs
    split_ifs at hs with hc
    obtain ⟨qs', es', k₁, hk, hi, hsub⟩ :=
      (h.core.mono True False (by simp [hc]) (by simp) False.elim).dequeue
    cases hk.symm.trans hs
    exact ⟨qs', es', hi, fun x hx => (hsub x hx).imp id .inl⟩
  | ret =>
    simp only [Timeout.step] at hs
    split at hs
    · rename_i next hph
      obtain ⟨qs', k₁, hk, hi, hsub⟩ :=
        (h.core.mono True True (by simp [hph]) (by simp) (by simp [hph])).walk
      rw [h.next next hph] at hs
      cases hk.symm.trans hs
      exact ⟨qs', es.tail, hi, fun x hx => .inl (hsub hx)⟩
    · cases hs
  | add t ticks =>
    simp only [Timeout.step] at hs
    split_ifs at hs with hc
    obtain ⟨hq, he⟩ := h.core.lists.active_iff.mp hc.2.1
    obtain ⟨qs', k₁, hk, hi, hph, hsub⟩ := h.core.add hq he hc.2.2 (fun hw => absurd hw hc.1)
    cases hk.symm.trans hs
    exact ⟨qs', es, h.of_core hi hph, fun x hx => .inl (hsub hx)⟩
  | abort t =>
    obtain ⟨qs', hi, -, -, hsub, -⟩ := h.abort (hg t rfl)
    cases hs
    exact ⟨qs', es.erase t, hi, fun x hx => (hsub x hx).imp_right fun hxt => .inr (by rw [hxt]; rfl)⟩
  | timerStart t duration period =>
    simp only [Timeout.step] at hs
    split_ifs at hs with hc
    obtain ⟨qs', k₁, hk, hi, hsub⟩ := h.timerStart hc.1 hc.2.1 hc.2.2 (hg t rfl)
    cases hk.symm.trans hs
    exact ⟨qs', es.erase t, hi, fun x hx => (hsub x hx).imp_right fun hxt => .inr (by rw [hxt]; rfl)⟩
  | timerStop t =>
    simp only [Timeout.step] at hs
    split_ifs at hs with hc
    obtain ⟨qs', hi, -, -, hsub, -⟩ := h.abort (hg t rfl)
    cases hs
    exact ⟨qs', es.erase t, hi, fun x hx => (hsub x hx).imp_right fun hxt => .inr (by rw [hxt]; rfl)⟩
  | workSubmit t ticks =>
    simp only [Timeout.step] at hs
    split_ifs at hs with hc
    obtain ⟨qs', es', k₁, hk, hi, hsub⟩ :=
      h.workSubmit hc.1 hc.2 (fun hw hp => hg t (if_pos ⟨hw, hp⟩))
    cases hk.symm.trans hs
    refine ⟨qs', es', hi, fun x hx => (hsub x hx).imp id (fun hx => .inr ?_)⟩
    rw [hx.1]
    exact if_pos hx.2
  | workCancel t =>
    simp only [Timeout.step] at hs
    split_ifs at hs with hc
    obtain ⟨qs', es', hi, -, hsub⟩ := h.workCancel hc (fun hw hp => hg t (if_pos ⟨hw, hp⟩))
    cases hs
    refine ⟨qs', es', hi, fun x hx => (hsub x hx).imp id (fun hx => .inr ?_)⟩
    rw [hx.1]
    exact if_pos hx.2
  | workNext =>
    cases hs
    exact ⟨qs, es, h.workNext, fun x hx => .inl hx⟩

theorem Inv.init (links : Links (Node T)) (delta : Node T → Int) :
    Inv kind [] [] (initKernel links delta) := by
  have hring : (sysDlistInit links Node.timeoutQ).IsRing .timeoutQ [] := by
    rw [isRing_nil_iff]
    simp [sysDlistInit, Links.setNext, Links.setPrev]
  refine ⟨⟨⟨⟨?_, ?_⟩, fun _ => rfl, trivial, by simp, by simp, fun _ _ _ => rfl⟩, by simp, by simp,
    by simp [initKernel], rfl, by simp, fun _ => by simp [initKernel, Ticks], by simp, .nil,
    by simp [initKernel]⟩, by simp [initKernel]⟩
  · rintro (_ | _) hi
    · exact hring
    · exact absurd rfl (hi rfl)
  · rintro (_ | _) hi (_ | _) hj hij
    · simp at hij
    · exact absurd rfl (hj rfl)
    · exact absurd rfl (hi rfl)
    · simp at hij

def AbortsQueued (k : Kernel T) (a : Act T) : Prop :=
  ∀ t ∈ abortTarget k a, k.delta (.timeout t) ≠ expiredMark

instance (k : Kernel T) (a : Act T) : Decidable (AbortsQueued k a) :=
  inferInstanceAs (Decidable (∀ t ∈ abortTarget k a, _ ≠ _))

theorem AbortsQueued.sparesWalk {a : Act T} (h : AbortsQueued k a) : SparesWalk k a :=
  fun t ht hd => absurd hd (h t ht)

theorem inv_of_run {links : Links (Node T)} {delta : Node T → Int}
    (h : GuardedRun (step kind) SparesWalk (initKernel links delta) k) :
    ∃ qs es, Inv kind qs es k := by
  refine h.invariant (P := fun k => ∃ qs es, Inv kind qs es k) ?_ ⟨[], [], Inv.init links delta⟩
  rintro k a _ ⟨qs, es, hi⟩ hg hs
  obtain ⟨qs', es', hi', -⟩ := hi.step hg hs
  exact ⟨qs', es', hi'⟩

theorem progress_of_inv (h : Inv kind qs es k) :
    (∀ ticks, k.phase = .idle → Ticks ticks → announceable k ticks = true →
      (step kind k (.announce ticks)).isSome) ∧
    (k.phase = .dequeue → (step kind k .dequeue).isSome) ∧
    (∀ next, k.phase = .handler next → (step kind k .ret).isSome) ∧
    (∀ t ticks, kind t ≠ .work → k.delta (.timeout t) = inactive → Ticks ticks →
      (step kind k (.add t ticks)).isSome) := by
  refine ⟨fun ticks hp ht ha => ?_, fun hp => ?_, fun next hp => ?_, fun t ticks hk hd ht => ?_⟩
  · obtain ⟨_, _, k', hk, -⟩ := h.announce hp ht ha
    simp [step, hp, ht, ha, hk]
  · obtain ⟨_, _, k', hk, -⟩ :=
      (h.core.mono True False (by simp [hp]) (by simp) False.elim).dequeue
    simp [step, hp, hk]
  · obtain ⟨_, k', hk, -⟩ :=
      (h.core.mono True True (by simp [hp]) (by simp) (by simp [hp])).walk
    rw [← h.next next hp] at hk
    simp [step, hp, hk]
  · obtain ⟨hq, he⟩ := h.core.lists.active_iff.mp hd
    obtain ⟨_, k', hk', -⟩ := h.core.add hq he ht (fun hw => absurd hw hk)
    simp [step, hk, hd, ht, hk']

/-- The walk at `node`, with the deltas before it in `ticks`; `none` when it reads through `NULL`
or does not end within the fuel. -/
def remainingLoop (k : Kernel T) (t : T) : Nat → Int → Option (Node T) → Option Int
  | fuel + 1, ticks, some node =>
    let ticks := s32 (ticks + k.delta node)
    if node = .timeout t then some ticks
    else remainingLoop k t fuel ticks (sysDlistPeekNext k.links .timeoutQ (some node))
  | _, _, _ => none

def ticksToMs (ticksPerSec : Nat) (ticks : Int) : Int :=
  if ticksPerSec ∈ [1000, 500, 250, 125, 100, 50, 25, 20, 10, 1] then
    ticks % 2 ^ 64 * (1000 / ticksPerSec : Nat) % 2 ^ 64
  else 1000 * (ticks % 2 ^ 64) % 2 ^ 64 / ticksPerSec

def timeoutRemainingGet (ticksPerSec : Nat) (k : Kernel T) (t : T) : Option Int :=
  (if k.delta (.timeout t) = inactive then some 0
    else remainingLoop k t k.adds 0 (sysDlistPeekHead k.links .timeoutQ)).map
      fun ticks => s32 (ticksToMs ticksPerSec ticks)

theorem ticksToMs_eq (ticksPerSec : Nat) {ticks : Int} (h : 0 ≤ ticks) (h' : ticks < 2 ^ 31) :
    ticksToMs ticksPerSec ticks = 1000 * ticks / ticksPerSec := by
  have hticks : ticks % 2 ^ 64 = ticks := Int.emod_eq_of_lt h (by omega)
  unfold ticksToMs
  split_ifs with hmem
  · simp only [mem_cons, not_mem_nil, or_false] at hmem
    rcases hmem with rfl | rfl | rfl | rfl | rfl | rfl | rfl | rfl | rfl | rfl <;> omega
  · rw [hticks, Int.emod_eq_of_lt (by omega) (by omega)]

theorem remainingLoop_eq {t : T} {w v : List T} {base now : Int} {fuel : Nat}
    (hring : k.links.IsRing .timeoutQ ((w ++ v).map .timeout))
    (hd : DeltaFrom (k.delta ∘ .timeout) k.deadline base v) (hnow : now ≤ base)
    (hnear : ∀ x ∈ v, k.deadline x < now + 2 ^ 31) (hfuel : v.length ≤ fuel) :
    remainingLoop k t fuel (base - now) (v.head?.map .timeout) =
      if t ∈ v then some (k.deadline t - now) else none := by
  induction v generalizing w base fuel with
  | nil => cases fuel <;> rfl
  | cons x v ih =>
    obtain ⟨fuel, rfl⟩ := Nat.exists_eq_add_of_le' hfuel
    obtain ⟨hx, hpos, hd⟩ := hd
    have hlt := hnear x mem_cons_self
    have hsum : s32 (base - now + k.delta (.timeout x)) = k.deadline x - now := by
      simp only [Function.comp_apply] at hx hpos
      rw [s32_eq] <;> omega
    have hnext := peekNext_timeout hring
    simp only [head?_cons, Option.map_some, remainingLoop, length_cons, hsum, hnext]
    by_cases hxt : x = t
    · simp [hxt]
    · have hih := ih (w := w ++ [x]) (by simpa using hring) hd (by
        omega) (fun y hy => hnear y (mem_cons_of_mem _ hy)) (Nat.le_add_left _ fuel)
      simp only [Node.timeout.injEq, hxt, mem_cons, Ne.symm hxt, false_or]
      exact hih

end Zephyr.Timeout
