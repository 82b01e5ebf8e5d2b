import Zephyr.PipeGet
import Zephyr.Run

/-! Runs of a pipe: whatever the sizes and timeouts of the calls, the bytes taken from writers are
those stored for readers and then those in the buffer. -/

namespace Zephyr.Pipe

open List Option Function

variable {A T D B S : Type} {g : Tag T} {n : Nat}
  {s r : State A T D B S} {t : T} {minXfer : Nat} {timeout : Timeout} {expired : List T}
  {ws : List (Writer T D)}

theorem mem_dummiesOf {d : D} : d ∈ dummiesOf ws ↔ .dummy d ∈ ws := by
  simp only [dummiesOf, mem_filterMap]
  constructor
  · rintro ⟨w, hw, he⟩
    cases w with
    | thread t => cases he
    | dummy x => exact some.inj he ▸ hw
  · exact fun h => ⟨_, h, rfl⟩

theorem nodup_dummiesOf (h : ws.Nodup) : (dummiesOf ws).Nodup := by
  refine List.Nodup.filterMap (fun a b d ha hb => ?_) h
  cases a with
  | thread t => cases ha
  | dummy x =>
    cases b with
    | thread t => cases hb
    | dummy y => rw [some.inj ha, some.inj hb]

variable [DecidableEq D]

variable [DecidableEq T] {returned : List (Result A T)} {code : Int} {bytesToRead : Nat}
  {x : List A × Nat} {stored : List A} {free : List D}

theorem Inv.getData (h : Inv none (some g) s) (hnew : bytesOf g s.received = []) (expired : List T)
    {xferList writers : List (Writer T D)} {writer : Option (Writer T D)}
    (hws : workingSet (fun w => (descBytes s w).length) n 0 s.writers =
      (xferList, writer, writers)) :
    ∃ r stored, getData (expire { s with writers } expired) g n xferList writer = (r, stored) ∧
      Inv none (some g) r ∧
      Getting g n s.writers (expire { s with writers } expired) xferList stored r ∧
      (∀ w ∈ xferList, descBytes r w = []) ∧
      (stored.length < n → stored.length = s.pipe.bytesUsed + left s s.writers ∧
        r.pipe.bytesUsed = 0 ∧ r.writers = []) ∧
      (s.pipe.bytesUsed + left s s.writers < n → stored.length < n) := by
  obtain ⟨hsplit, hsub, hsum, hhead, hmore⟩ := workingSet_split hws
  obtain ⟨R, V, heq, hR, hV, -⟩ := expire_eq { s with writers } expired
  dsimp only at hR hV
  have hVs : V.Sublist s.writers := hV.trans (hsplit ▸ sublist_append_right _ _)
  have h1 : Inv none (some g) { s with readers := R, writers := V } := h.queues hR hVs
  have hf : Flight s.writers { s with readers := R, writers := V } :=
    ⟨h.writers.2, h.dummies, h.ids⟩
  have hfull : xferList ++ writer.toList ≠ [] → s.pipe.bytesUsed = s.pipe.size := by
    intro hn
    exact h.full fun he => hn (sublist_nil.mp (he ▸ hsub))
  obtain ⟨r, stored, hget, hG, hnil, hfu, hem, hall⟩ := getData_spec (n := n) h1.puts h1.gets h1.stream
    h1.wf hnew hf hsub.subset (h.writers.1.sublist hsub) hfull hsum hmore
  obtain ⟨pipe, _, _, _, _, _, _, rfl⟩ := hG.frame
  replace hall : writer = none →
    pipe.bytesUsed + stored.length = s.pipe.bytesUsed + left s xferList := hall
  have hwn : writer = none → V = [] := by
    rintro rfl
    cases writers with
    | nil => exact sublist_nil.mp hV
    | cons w ws => simp at hhead
  have hfree := hG.free
  dsimp only at hfree
  have hxw : ∀ d, .dummy d ∈ xferList → .dummy d ∈ s.writers := fun d hd =>
    hsub.subset (mem_append_left _ hd)
  rw [heq]
  refine ⟨_, stored, hget, ⟨hG.puts, hG.gets, hG.stream, hG.wf, fun hn => ?_, fun hn => ?_,
    h1.apart, h1.readers, ⟨h1.writers.1, fun t ht => (hG.calls t).trans (h1.writers.2 t ht)⟩,
    fun d hd => ?_, fun d d' hd hd' he => ?_, ?_, fun d hd hw => ?_⟩, hG, hnil, fun hlt => ?_,
    fun hlt => ?_⟩
  · cases writer with
    | none => exact absurd (hwn rfl) hn
    | some w => exact (hfu w rfl).1
  · have hrs : s.readers ≠ [] := fun he => hn (sublist_nil.mp (he ▸ hR))
    have hu := h.empty hrs
    have hsw : s.writers = [] := h.apart.resolve_left hrs
    obtain ⟨rfl, htl⟩ : xferList = [] ∧ writer.toList = [] := by simpa [hsw] using hsub
    have := hall (by simpa using htl)
    simp only [left, map_nil, sum_nil, hu] at this
    dsimp only
    omega
  · rw [hG.id_eq]
    exact h1.dummies d hd
  · rw [hG.id_eq, hG.id_eq] at he
    exact h1.ids d d' hd hd' he
  · rw [hfree]
    refine (nodup_reverse.mpr (nodup_dummiesOf ?_)).append h.free.1 ?_
    · exact h.writers.1.sublist ((sublist_append_left _ _).trans hsub)
    · intro d hd hd'
      exact h.free.2 d hd' (hxw d (mem_dummiesOf.mp (mem_reverse.mp hd)))
  · rw [hfree] at hd
    rcases mem_append.mp hd with hd | hd
    · have hnd := h.writers.1
      rw [← hsplit] at hnd
      exact (nodup_append.mp hnd).2.2 _ (mem_dummiesOf.mp (mem_reverse.mp hd)) _ (hV.subset hw) rfl
    · exact h1.free.2 d hd hw
  · obtain rfl : writer = none := by
      cases writer with
      | none => rfl
      | some w => exact absurd (hfu w rfl).2 hlt.ne
    obtain rfl : writers = [] := by simpa using hhead.symm
    have hcount := hall rfl
    rw [append_nil] at hsplit
    rw [hsplit, hem hlt, Nat.zero_add] at hcount
    exact ⟨hcount, hem hlt, hwn rfl⟩
  · have hle := (hsub.map fun w => (descBytes s w).length).sum_le_sum fun _ _ => Nat.zero_le _
    cases writer with
    | none =>
      have hcount := hall rfl
      simp only [toList_none, append_nil] at hle
      simp only [left] at hcount hlt
      omega
    | some w =>
      have := hmore w rfl
      simp only [toList_some, map_append, sum_append, map_cons, map_nil, sum_cons, sum_nil] at hle
      simp only [left] at hlt
      omega

omit [DecidableEq D] in
theorem Inv.returnGet (h : Inv none (some (s.now t)) s) (ht : s.putCall t = none)
    {bytesToRead b : Nat}
    (hbytes : bytesOf (s.now t) s.received = stored) (hb : b = stored.length) :
    Inv none none (returnGet s t bytesToRead minXfer stored b code) := by
  have hnone := (h.gets.apart t _ rfl).2
  refine { h with puts := ?_, gets := ?_, readers := ⟨h.readers.1, ?_⟩ }
  · have := h.puts.skip ht
    simpa [PutBooks, Pipe.returnGet, putResults] using this
  · have := h.gets.finish (r := (stored, b)) ⟨hbytes, hb⟩
    simpa [GetBooks, Pipe.returnGet, getResults] using this
  · intro x hx
    have hxt : x ≠ t := by
      rintro rfl
      simpa [hnone] using h.readers.2 x hx
    simpa [Pipe.returnGet, hxt] using h.readers.2 x hx

omit [DecidableEq D] in
theorem Inv.pendGet (h : Inv none (some (s.now t)) s)
    (hbytes : bytesOf (s.now t) s.received = stored) (hle : stored.length ≤ bytesToRead)
    (hw : s.writers = []) (hempty : s.pipe.bytesUsed = 0) (prio : T → Int) :
    Inv none none { s with
      getCall := update s.getCall t
        (some ⟨bytesToRead, stored, bytesToRead - stored.length, minXfer, timeout⟩)
      readers := pendThread prio t s.readers } := by
  have hnone := (h.gets.apart t _ rfl).2
  have ht : t ∉ s.readers := fun hf => by simpa [hnone] using h.readers.2 t hf
  refine { h with
    gets := h.gets.pend ⟨hbytes, by dsimp only; omega⟩, empty := fun _ => hempty, apart := .inr hw
    readers := ⟨nodup_pendThread h.readers.1 ht, fun x hx => ?_⟩ }
  by_cases hxt : x = t
  · simp [hxt]
  · have := h.readers.2 x (by simpa [hxt, mem_pendThread] using hx)
    simpa [hxt] using this

theorem Inv.get (h : Inv none none s) (ht : s.putCall t = none ∧ s.getCall t = none)
    (hs : kPipeGet s t bytesToRead minXfer timeout expired = some r) :
    Inv none none r ∧ (∃ xferList, Served s r xferList) ∧
      (minXfer = 0 → s.pipe.bytesUsed + left s s.writers < bytesToRead →
        r.pipe.bytesUsed = 0 ∧ r.writers = []) := by
  have h1 : Inv none (some (s.now t)) s := { h with gets := h.gets.start ht.2 }
  have hnext := h.gets.bytesOf_next ht.2
  unfold kPipeGet at hs
  cases hprep : pipeXferPrepare (fun w => (descBytes s w).length) s.writers s.pipe.bytesUsed
      bytesToRead minXfer timeout with
  | none =>
    simp only [hprep] at hs
    cases hs
    refine ⟨h1.returnGet ht.1 hnext rfl, ⟨[], .of_eq (fun _ => .rfl) rfl rfl rfl fun _ => rfl⟩, ?_⟩
    rintro rfl
    simp [pipeXferPrepare] at hprep
  | some ws =>
    obtain ⟨xferList, writer, writers⟩ := ws
    have hws := workingSet_of_prepare hprep
    obtain ⟨_, _, heq, hinv, hG, hnil, hless, hshort⟩ := h1.getData hnext expired hws
    obtain ⟨pipe, putCall, async, free, accepted, received, finished, rfl⟩ := hG.frame
    have hput : putCall t = none := by simpa [ht.1, expire] using hG.calls t
    have hsplit := (workingSet_split hws).1
    have hsubw : (expire { s with writers } expired).writers.Sublist writers := filter_sublist
    simp only [hprep] at hs
    by_cases habort : xferList.all (abortable s) = true
    · rw [if_pos habort] at hs
      have hserved : ∀ r : State A T D B S, r.writers = (expire { s with writers } expired).writers →
          r.blocks = s.blocks → r.async = async → r.accepted = accepted → r.finished = finished →
          Served s r xferList := by
        intro r e1 e2 e3 e4 e5
        refine ⟨hsplit ▸ sublist_append_left _ _, all_eq_true.mp habort,
          fun d hd => ?_, e2,
          e3 ▸ hG.async, fun d hd => ⟨e3 ▸ hnil _ hd, fun hf => ?_⟩, fun d hd hn => ?_,
          e3 ▸ e4 ▸ hG.blocks, e4 ▸ hG.other, e5 ▸ hG.finished⟩
        · rw [e1] at hd
          rw [← hsplit]
          exact mem_append_right _ (hsubw.subset hd)
        · have hnd := h.writers.1
          rw [← hsplit] at hnd
          exact (nodup_append.mp hnd).2.2 _ hd _ (hsubw.subset (e1 ▸ hf)) rfl
        · rw [← hsplit] at hd
          rw [e1]
          exact mem_filter.mpr ⟨(mem_append.mp hd).resolve_left hn, rfl⟩
      have hcall : (expire { s with writers } expired).now t = s.now t := rfl
      simp only [hcall, heq] at hs
      cases hs
      have hbytes := hG.bytes
      have hle := hG.le
      split_ifs with hdone hno
      · exact ⟨hinv.returnGet hput hbytes rfl, ⟨xferList, hserved _ rfl rfl rfl rfl rfl⟩,
          fun _ hlt => (hless (hshort hlt)).2⟩
      · exact ⟨hinv.returnGet hput hbytes (by omega), ⟨xferList, hserved _ rfl rfl rfl rfl rfl⟩,
          fun _ hlt => (hless (hshort hlt)).2⟩
      · obtain ⟨-, hempty, hwn⟩ := hless (by omega)
        exact ⟨hinv.pendGet hbytes hle hwn hempty _, ⟨xferList, hserved _ rfl rfl rfl rfl rfl⟩,
          fun _ _ => ⟨hempty, hwn⟩⟩
    · rw [if_neg habort] at hs
      cases hs

omit [DecidableEq D] in
theorem Inv.resumePut (h : Inv none none s) {c : PutCall A} (hc : s.putCall t = some c)
    (hg : s.getCall t = none) (hw : .thread t ∉ s.writers) :
    Inv none none (Pipe.returnPut s t c.data c.minXfer (c.data.length - c.rest.length) code) := by
  have hbytes : bytesOf (s.now t) s.accepted ++ c.rest = c.data := h.puts.opened t c hc
  have h1 : Inv (some (s.now t)) none { s with putCall := update s.putCall t none } := by
    refine { h with puts := h.puts.resume hc, writers := ⟨h.writers.1, fun x hx => ?_⟩ }
    have hxt : x ≠ t := by
      rintro rfl
      exact hw hx
    simpa [hxt] using h.writers.2 x hx
  have htake : bytesOf (s.now t) s.accepted = c.data.take (c.data.length - c.rest.length) := by
    rw [← hbytes, length_append, Nat.add_sub_cancel, take_left]
  have hsame : ∀ m b, Pipe.returnPut s t c.data m b code =
      Pipe.returnPut { s with putCall := update s.putCall t none } t c.data m b code := by
    simp [Pipe.returnPut]
  rw [hsame]
  refine Inv.returnPut ?_ ?_ (Nat.sub_le _ _) ?_
  · exact h1
  · exact hg
  · exact htake

omit [DecidableEq D] in
theorem Inv.resumeGet (h : Inv none none s) {c : GetCall A} (hc : s.getCall t = some c)
    (hp : s.putCall t = none) (hr : t ∉ s.readers) :
    Inv none none
      (Pipe.returnGet s t c.bytesToRead c.minXfer c.stored (c.bytesToRead - c.bytesToXfer) code) := by
  obtain ⟨hbytes, hlen⟩ := h.gets.opened t c hc
  have h1 : Inv none (some (s.now t)) { s with getCall := update s.getCall t none } := by
    refine { h with gets := h.gets.resume hc, readers := ⟨h.readers.1, fun x hx => ?_⟩ }
    have hxt : x ≠ t := by
      rintro rfl
      exact hr hx
    simpa [hxt] using h.readers.2 x hx
  have hsame : ∀ n m b, Pipe.returnGet s t n m c.stored b code =
      Pipe.returnGet { s with getCall := update s.getCall t none } t n m c.stored b code := by
    simp [Pipe.returnGet]
  rw [hsame]
  refine Inv.returnGet ?_ ?_ ?_ (Nat.sub_eq_of_eq_add hlen.symm)
  · exact h1
  · exact hp
  · exact hbytes

theorem Inv.syncStep (h : Inv none none s) {a : Act A T B S} (ha : Allowed s a ∧ Sync a)
    (hs : step s a = some r) : Inv none none r ∧ ∃ xferList, Served s r xferList := by
  cases a with
  | put t data minXfer timeout expired =>
    cases hs
    exact ⟨(h.put ha.1).1, [], (h.put ha.1).2⟩
  | get t bytesToRead minXfer timeout expired =>
    obtain ⟨hr, hserved, -⟩ := h.get ha.1 hs
    exact ⟨hr, hserved⟩
  | blockPut t block data sem expired => exact absurd ha.2 id
  | timeout ts =>
    cases hs
    obtain ⟨_, _, heq, hr, hw, hd⟩ := expire_eq s ts
    rw [heq]
    exact ⟨h.queues hr hw, [], .of_eq (fun d => ⟨(hw.subset ·), hd d⟩) rfl rfl rfl fun _ => rfl⟩
  | ret t =>
    simp only [step, returnCall] at hs
    split at hs
    · rename_i c hc hg
      split_ifs at hs with hw
      cases hs
      exact ⟨h.resumePut hc hg hw, [], .of_eq (fun _ => .rfl) rfl rfl rfl fun _ => rfl⟩
    · rename_i c hp hc
      split_ifs at hs with hr
      cases hs
      exact ⟨h.resumeGet hc hp hr, [], .of_eq (fun _ => .rfl) rfl rfl rfl fun _ => rfl⟩
    · cases hs
  | prioritySet t prio =>
    cases hs
    exact ⟨{ h with }, [], .of_eq (fun _ => .rfl) rfl rfl rfl fun _ => rfl⟩

omit [DecidableEq D] in
theorem Inv.init (buffer : Nat → A) (size : Nat) (prio : Writer T D → Int) (async : D → Async A B S)
    (hfree : free.Nodup) : Inv none none (initState buffer size prio async free) where
  puts := ⟨by simp [initState], by simp [initState, putResults], by simp [initState], by simp⟩
  gets := ⟨by simp [initState], by simp [initState, getResults], by simp [initState], by simp⟩
  stream := by simp [Stream, initState, KPipe.contents_eq_nil]
  wf := ⟨Nat.zero_le _, by simp [initState], by simp [initState]⟩
  full := by simp [initState]
  empty := by simp [initState]
  apart := .inl rfl
  readers := by simp [initState]
  writers := by simp [initState]
  dummies := by simp [initState]
  ids := by simp [initState]
  free := ⟨hfree, by simp [initState]⟩

structure Conserved (s : State A T D B S) : Prop where
  stream : s.accepted.map Prod.snd = s.received.map Prod.snd ++ s.pipe.contents
  pendingPut : ∀ t c, s.putCall t = some c → bytesOf (s.now t) s.accepted ++ c.rest = c.data
  returnedPut : ∀ t k data minXfer bytesWritten code,
    .put t k data minXfer bytesWritten code ∈ s.returned → bytesWritten ≤ data.length ∧
      bytesOf (.thread t k) s.accepted = data.take bytesWritten
  pendingGet : ∀ t c, s.getCall t = some c → bytesOf (s.now t) s.received = c.stored
  returnedGet : ∀ t k bytesToRead minXfer stored bytesRead code,
    .get t k bytesToRead minXfer stored bytesRead code ∈ s.returned →
      bytesOf (.thread t k) s.received = stored ∧ bytesRead = stored.length
  acceptedOf : ∀ e ∈ s.accepted, (∃ t, (s.putCall t).isSome ∧ e.1 = s.now t) ∨
    ∃ t k data minXfer bytesWritten code,
      .put t k data minXfer bytesWritten code ∈ s.returned ∧ e.1 = .thread t k
  receivedOf : ∀ e ∈ s.received, (∃ t, (s.getCall t).isSome ∧ e.1 = s.now t) ∨
    ∃ t k bytesToRead minXfer stored bytesRead code,
      .get t k bytesToRead minXfer stored bytesRead code ∈ s.returned ∧ e.1 = .thread t k
  writers : s.writers ≠ [] → s.pipe.bytesUsed = s.pipe.size
  readers : s.readers ≠ [] → s.pipe.bytesUsed = 0

omit [DecidableEq T] in
theorem mem_putResults {k : Nat} : (t, k, x) ∈ putResults returned ↔
      ∃ minXfer code, .put t k x.1 minXfer x.2 code ∈ returned := by
  simp only [putResults, mem_filterMap]
  constructor
  · rintro ⟨e, he, heq⟩
    cases e with
    | put t' k' data minXfer b code =>
      obtain ⟨rfl, rfl, rfl⟩ : t' = t ∧ k' = k ∧ (data, b) = x := by simpa using heq
      exact ⟨minXfer, code, he⟩
    | get => cases heq
  · rintro ⟨minXfer, code, he⟩
    exact ⟨_, he, rfl⟩

omit [DecidableEq T] in
theorem mem_getResults {k : Nat} : (t, k, x) ∈ getResults returned ↔
      ∃ bytesToRead minXfer code, .get t k bytesToRead minXfer x.1 x.2 code ∈ returned := by
  simp only [getResults, mem_filterMap]
  constructor
  · rintro ⟨e, he, heq⟩
    cases e with
    | get t' k' bytesToRead minXfer stored b code =>
      obtain ⟨rfl, rfl, rfl⟩ : t' = t ∧ k' = k ∧ (stored, b) = x := by simpa using heq
      exact ⟨bytesToRead, minXfer, code, he⟩
    | put => cases heq
  · rintro ⟨bytesToRead, minXfer, code, he⟩
    exact ⟨_, he, rfl⟩

omit [DecidableEq D] in
theorem Inv.conserved (h : Inv none none s) (hb : s.blocks = 0) : Conserved s where
  stream := h.stream
  pendingPut := h.puts.opened
  returnedPut t k data minXfer b code he :=
    (h.puts.result t k (data, b) (mem_putResults.mpr ⟨minXfer, code, he⟩)).2
  pendingGet t c hc := (h.gets.opened t c hc).1
  returnedGet t k n minXfer stored b code he :=
    (h.gets.result t k (stored, b) (mem_getResults.mpr ⟨n, minXfer, code, he⟩)).2
  acceptedOf e he := by
    rcases h.puts.known e he with hf | hf | ⟨t, k, x, hx, hf⟩ | ⟨id, hid, -⟩
    · cases hf
    · exact .inl hf
    · obtain ⟨minXfer, code, hm⟩ := mem_putResults.mp hx
      exact .inr ⟨t, k, _, minXfer, _, code, hm, hf⟩
    · omega
  receivedOf e he := by
    rcases h.gets.known e he with hf | hf | ⟨t, k, x, hx, hf⟩ | ⟨id, hid, -⟩
    · cases hf
    · exact .inl hf
    · obtain ⟨n, minXfer, code, hm⟩ := mem_getResults.mp hx
      exact .inr ⟨t, k, n, minXfer, _, _, code, hm, hf⟩
    · omega
  writers := h.full
  readers := h.empty

instance (s : State A T D B S) (a : Act A T B S) : Decidable (Allowed s a) :=
  match a with
  | .put t _ _ _ _ | .get t _ _ _ _ | .blockPut t _ _ _ _ =>
    decidable_of_iff ((s.putCall t).isNone ∧ (s.getCall t).isNone) (by simp [Allowed])
  | .timeout _ | .ret _ | .prioritySet _ _ => .isTrue trivial

instance (a : Act A T B S) : Decidable (Sync a) :=
  match a with
  | .blockPut _ _ _ _ _ => .isFalse id
  | .put _ _ _ _ _ | .get _ _ _ _ _ | .timeout _ | .ret _ | .prioritySet _ _ => .isTrue trivial

theorem sync_run_conserves_bytes {buffer : Nat → A} {size : Nat} {prio : Writer T D → Int}
    {async : D → Async A B S} (hfree : free.Nodup)
    (hrun : GuardedRun step (fun s a => Allowed s a ∧ Sync a)
      (initState buffer size prio async free) s) : Conserved s := by
  have h : Inv none none s ∧ s.blocks = 0 := by
    refine hrun.invariant (P := fun s => Inv none none s ∧ s.blocks = 0) (fun s a r h ha hs => ?_)
      ⟨.init buffer size prio async hfree, rfl⟩
    obtain ⟨hr, _, hserved⟩ := h.1.syncStep ha hs
    exact ⟨hr, hserved.blocks.trans h.2⟩
  exact h.1.conserved h.2

theorem sync_run_conserves_bytes_three : ∃ s : State Nat (Fin 3) Unit Unit Unit,
    GuardedRun step (fun s a => Allowed s a ∧ Sync a)
      (initState (fun _ => 0) 4 (fun _ => 0) (fun _ => ⟨[], true, (), none, 0⟩) [()]) s ∧
      s.received.map Prod.snd = [1, 2, 3, 4, 5] ∧ s.pipe.contents = [6, 7, 8, 9] ∧
      s.writers = [.thread 1] ∧ Conserved s := by
  have hrun : GuardedRun step (fun s a => Allowed s a ∧ Sync a)
      (initState (fun _ => 0) 4 (fun _ => 0) (fun _ => ⟨[], true, (), none, 0⟩) [()] :
        State Nat (Fin 3) Unit Unit Unit) _ :=
    .of_foldlM _ _ [.get 0 3 1 .forever [], .put 1 [1, 2, 3, 4, 5, 6, 7, 8, 9, 10] 1 (.ms 5) [],
      .ret 0, .get 2 2 2 .noWait []] rfl
  exact ⟨_, hrun, rfl, rfl, rfl, sync_run_conserves_bytes (nodup_singleton _) hrun⟩

end Zephyr.Pipe
