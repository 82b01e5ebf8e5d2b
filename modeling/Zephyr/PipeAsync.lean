import Zephyr.PipeRuns

/-! Asynchronous writes, and calls with `K_NO_WAIT`. What is left of a block when its dummy thread
pends is never recorded in the descriptor; a transfer below its minimum is refused before anything
is copied. -/

namespace Zephyr.Pipe

open List

variable {A T D B S : Type}

def FinishOp.id : FinishOp D B S → Nat
  | .memPoolFree id _ | .semGive id _ | .stackPush id _ => id

variable {s r : State A T D B S} {id : Nat} {d : D} {data : List A} {t : T}
  {done : List (Writer T D)}

def opsOf (id : Nat) (finished : List (FinishOp D B S)) : List (FinishOp D B S) :=
  finished.filter (·.id = id)

theorem id_of_mem_finishOps {a : Async A B S} {op : FinishOp D B S} (h : op ∈ finishOps a d) :
    op.id = a.id := by
  simp only [finishOps, mem_cons, mem_append, mem_map, not_mem_nil, or_false] at h
  rcases h with rfl | ⟨_, -, rfl⟩ | rfl <;> rfl

theorem opsOf_append (xs ys : List (FinishOp D B S)) :
    opsOf id (xs ++ ys) = opsOf id xs ++ opsOf id ys := filter_append ..

theorem opsOf_finishAll_eq_nil
    (h : ∀ d, .dummy d ∈ done → (s.async d).id ≠ id) : opsOf id (finishAll s done) = [] := by
  refine filter_eq_nil_iff.mpr fun op hop => ?_
  obtain ⟨w, hw, hop⟩ := mem_flatMap.mp hop
  cases w with
  | thread t => cases hop
  | dummy d => simpa [id_of_mem_finishOps hop] using h d hw

theorem opsOf_finishAll (hnd : done.Nodup) (hd : .dummy d ∈ done)
    (hids : ∀ x, .dummy x ∈ done → (s.async x).id = (s.async d).id → x = d) :
    opsOf (s.async d).id (finishAll s done) = finishOps (s.async d) d := by
  obtain ⟨ws, ws', rfl⟩ := mem_iff_append.mp hd
  obtain ⟨hl, hr⟩ : .dummy d ∉ ws ∧ .dummy d ∉ ws' := by
    obtain ⟨-, h2, h3⟩ := nodup_append.mp hnd
    exact ⟨fun hm => h3 _ hm _ (by simp) rfl, h2.notMem⟩
  have hother : ∀ x, .dummy x ∈ ws ∨ .dummy x ∈ ws' → (s.async x).id ≠ (s.async d).id := by
    intro x hx he
    obtain rfl := hids x (by simpa using hx.elim .inl fun h => .inr (.inr h)) he
    exact hx.elim hl hr
  have hsplit : finishAll s (ws ++ .dummy d :: ws') =
      finishAll s ws ++ (finishOps (s.async d) d ++ finishAll s ws') := by
    simp [finishAll]
  rw [hsplit, opsOf_append, opsOf_append, opsOf_finishAll_eq_nil fun x hx => hother x (.inl hx),
    opsOf_finishAll_eq_nil fun x hx => hother x (.inr hx), append_nil]
  exact filter_eq_self.mpr fun op hop => by simp [id_of_mem_finishOps hop]

section

variable [DecidableEq T] [DecidableEq D] {ops : List (FinishOp D B S)} {a : Act A T B S}

structure Delivering (id : Nat) (ops : List (FinishOp D B S)) (data : List A)
    (s : State A T D B S) : Prop where
  stream : s.accepted.map Prod.snd = s.received.map Prod.snd ++ s.pipe.contents
  order : opsOf id s.finished = [] ∧ bytesOf (.block id) s.accepted <+: data ∨
    opsOf id s.finished = ops ∧ bytesOf (.block id) s.accepted = data
  drained : s.pipe.bytesUsed = 0 → s.writers = [] → opsOf id s.finished = ops
  gets : ∀ t bytesToRead minXfer timeout expired,
    (kPipeGet s t bytesToRead minXfer timeout expired).isSome
  drains : ∀ t, s.putCall t = none → s.getCall t = none → ∃ bytesToRead r,
    kPipeGet s t bytesToRead 0 .noWait [] = some r ∧ r.pipe.bytesUsed = 0 ∧ r.writers = []

structure Carried (id : Nat) (d : D) (ops : List (FinishOp D B S)) (data : List A)
    (s : State A T D B S) : Prop where
  inv : Inv none none s
  inactive : ∀ x, .dummy x ∈ s.writers → (s.async x).inactive
  way : (opsOf id s.finished = [] ∧ .dummy d ∈ s.writers ∧ (s.async d).id = id ∧
      finishOps (s.async d) d = ops ∧
      bytesOf (.block id) s.accepted ++ (s.async d).bytes = data) ∨
    (opsOf id s.finished = ops ∧ (∀ x, .dummy x ∈ s.writers → (s.async x).id ≠ id) ∧
      bytesOf (.block id) s.accepted = data)

theorem Carried.step (h : Carried id d ops data s) (ha : Allowed s a ∧ Sync a)
    (hs : step s a = some r) : Carried id d ops data r := by
  obtain ⟨hr, xferList, hv⟩ := h.inv.syncStep ha hs
  have hid : ∀ x, (r.async x).id = (s.async x).id := fun x => by rw [hv.async]
  refine ⟨hr, fun x hx => ?_, ?_⟩
  · rw [hv.async]
    exact h.inactive x (hv.writers x hx)
  rw [hv.finished, opsOf_append]
  rcases h.way with ⟨hops, hd, hidd, hfin, hbytes⟩ | ⟨hops, hno, hbytes⟩
  · have huniq : ∀ x, .dummy x ∈ s.writers → (s.async x).id = (s.async d).id → x = d :=
      fun x hx he => h.inv.ids x d hx hd he
    have hnow := hv.bytes d hd
    rw [hidd, hbytes] at hnow
    by_cases hx : .dummy d ∈ xferList
    · obtain ⟨hnil, hgone⟩ := hv.taken d hx
      refine .inr ⟨?_, fun x hxr he => ?_, ?_⟩
      · rw [hops, nil_append, ← hfin, ← hidd]
        exact opsOf_finishAll (h.inv.writers.1.sublist hv.sublist) hx fun y hy =>
          huniq y (hv.sublist.subset hy)
      · rw [hid, ← hidd] at he
        exact hgone (huniq x (hv.writers x hxr) he ▸ hxr)
      · rwa [hnil, append_nil] at hnow
    · refine .inl ⟨?_, hv.kept d hd hx, (hid d).trans hidd, ?_, hnow⟩
      · rw [hops, nil_append]
        refine opsOf_finishAll_eq_nil fun y hy he => hx ?_
        rw [← hidd] at he
        exact huniq y (hv.sublist.subset hy) he ▸ hy
      · rw [hv.async]
        exact hfin
  · refine .inr ⟨?_, fun x hx => ?_, ?_⟩
    · rw [hops, opsOf_finishAll_eq_nil fun y hy => hno y (hv.sublist.subset hy), append_nil]
    · rw [hid]
      exact hno x (hv.writers x hx)
    · rw [hv.other id hno, hbytes]

theorem kPipeGet_isSome (h : ∀ x, .dummy x ∈ s.writers → (s.async x).inactive)
    (bytesToRead minXfer : Nat) (timeout : Timeout) (expired : List T) :
    (kPipeGet s t bytesToRead minXfer timeout expired).isSome := by
  unfold kPipeGet
  split
  · rfl
  · rename_i xferList writer writers hprep
    have hsub : xferList ⊆ s.writers := by
      rw [← (workingSet_split (workingSet_of_prepare hprep)).1]
      exact subset_append_left _ _
    have habort : xferList.all (abortable s) = true := by
      refine all_eq_true.mpr fun w hw => ?_
      cases w with
      | thread t => rfl
      | dummy x => exact h x (hsub hw)
    rw [if_pos habort]
    rfl

theorem Inv.drains (h : Inv none none s) (ha : ∀ x, .dummy x ∈ s.writers → (s.async x).inactive)
    (hp : s.putCall t = none) (hg : s.getCall t = none) :
    ∃ r, kPipeGet s t (s.pipe.bytesUsed + left s s.writers + 1) 0 .noWait [] = some r ∧
      r.pipe.bytesUsed = 0 ∧ r.writers = [] := by
  obtain ⟨r, hr⟩ := Option.isSome_iff_exists.mp (kPipeGet_isSome (t := t) ha
    (s.pipe.bytesUsed + left s s.writers + 1) 0 .noWait [])
  obtain ⟨-, -, hdrain⟩ := h.get ⟨hp, hg⟩ hr
  exact ⟨r, hr, hdrain rfl (Nat.lt_succ_self _)⟩

theorem Carried.delivering (h : Carried id d ops data s) : Delivering id ops data s where
  stream := h.inv.stream
  order := by
    rcases h.way with ⟨hops, -, -, -, hbytes⟩ | ⟨hops, -, hbytes⟩
    · exact .inl ⟨hops, _, hbytes⟩
    · exact .inr ⟨hops, hbytes⟩
  drained _ hw := by
    rcases h.way with ⟨-, hd, -⟩ | ⟨hops, -⟩
    · simp [hw] at hd
    · exact hops
  gets _ := kPipeGet_isSome h.inactive
  drains _ hp hg := ⟨_, h.inv.drains h.inactive hp hg⟩

def FinishedIds (s : State A T D B S) : Prop := ∀ op ∈ s.finished, op.id < s.blocks

omit [DecidableEq D] in
theorem Served.finishedIds {xferList : List (Writer T D)} (hv : Served s r xferList)
    (h : Inv none none s) (hf : FinishedIds s) : FinishedIds r := by
  intro op hop
  rw [hv.blocks]
  rw [hv.finished] at hop
  rcases mem_append.mp hop with hop | hop
  · exact hf op hop
  · obtain ⟨w, hw, hop⟩ := mem_flatMap.mp hop
    cases w with
    | thread t => cases hop
    | dummy x =>
      rw [id_of_mem_finishOps hop]
      exact h.dummies x (hv.sublist.subset hw)

theorem Inv.step (h : Inv none none s ∧ FinishedIds s) (ha : Allowed s a)
    (hs : step s a = some r) : Inv none none r ∧ FinishedIds r := by
  by_cases hsync : Sync a
  · obtain ⟨hr, _, hv⟩ := h.1.syncStep ⟨ha, hsync⟩ hs
    exact ⟨hr, hv.finishedIds h.1 h.2⟩
  cases a with
  | blockPut t block data sem expired =>
    have hcall : kPipeBlockPut s t block data sem expired = some r := hs
    cases hfree : s.free with
    | nil => simp [kPipeBlockPut, hfree] at hcall
    | cons d free =>
      obtain ⟨_, heq, hr, hblocks, -, -, -, -, -, hfast, hslow⟩ :=
        h.1.blockPut hfree t block data sem expired
      cases hcall.symm.trans heq
      refine ⟨hr, fun op hop => ?_⟩
      have hold : ∀ op ∈ s.finished, op.id < r.blocks := fun op hop => by
        rw [hblocks]
        exact (h.2 op hop).trans (Nat.lt_succ_self _)
      rcases Nat.lt_or_ge (room s) data.length with hlt | hle
      · rw [(hslow hlt).2.1] at hop
        exact hold op hop
      · rw [(hfast hle).2] at hop
        rcases mem_append.mp hop with hop | hop
        · exact hold op hop
        · have := id_of_mem_finishOps (a := (⟨[], true, block, sem, s.blocks⟩ : Async A B S)) hop
          simp only [this, hblocks, Nat.lt_succ_self]
  | _ => exact absurd trivial hsync

variable {buffer : Nat → A} {size : Nat} {prio : Writer T D → Int} {async : D → Async A B S}
  {free rest : List D}

section

variable (hfree : free.Nodup)
  (hrun : GuardedRun Pipe.step Allowed (initState buffer size prio async free) s)

include hfree hrun

theorem inv_of_run : Inv none none s ∧ FinishedIds s :=
  hrun.invariant (P := fun s => Inv none none s ∧ FinishedIds s) (fun _ _ _ => Inv.step)
    ⟨.init buffer size prio async hfree, fun op hop => by cases hop⟩

theorem block_put_delivers_iff (ht : s.putCall t = none ∧ s.getCall t = none)
    (hd : s.free = d :: rest) {block : B} {sem : Option S} {expired : List T} (hput : kPipeBlockPut s t block data sem expired = some r) :
    (∀ u, GuardedRun Pipe.step (fun s a => Allowed s a ∧ Sync a) r u →
      Delivering s.blocks (.memPoolFree s.blocks block ::
        (sem.toList.map (.semGive s.blocks) ++ [.stackPush s.blocks d])) data u) ↔
    (∀ x, .dummy x ∈ s.writers → (s.async x).inactive) ∧ (data.length ≤ room s ∨
        (s.async d).bytes = data.drop (room s) ∧ (s.async d).inactive) := by
  obtain ⟨h, hids⟩ := inv_of_run hfree hrun
  obtain ⟨_, heq, hr, hblocks, hpc, hgc, hasync, hbytes, hkeep, hfast, hslow⟩ :=
    h.blockPut hd t block data sem expired
  cases hput.symm.trans heq
  have hdw : .dummy d ∉ s.writers := h.free.2 d (by simp [hd])
  have hold : ∀ x, .dummy x ∈ s.writers → r.async x = s.async x := fun x hx => by
    have hne : x ≠ d := by
      rintro rfl
      exact hdw hx
    rw [hasync, Function.update_of_ne hne]
  have hnew : r.async d = { s.async d with block, sem, id := s.blocks } := by
    rw [hasync, Function.update_self]
  have hops : opsOf s.blocks s.finished = [] :=
    filter_eq_nil_iff.mpr fun op hop => by simpa using (hids op hop).ne
  constructor
  · intro hall
    have hidle : r.putCall t = none ∧ r.getCall t = none :=
      ⟨by rw [hpc, ht.1], by simpa [ht.2] using hgc t⟩
    obtain ⟨n, u, hget, hused, hnil⟩ := (hall r .refl).drains t hidle.1 hidle.2
    obtain ⟨-, ⟨xferList, hv⟩, -⟩ := hr.get hidle hget
    have hu := hall u (.single ⟨.get t n 0 .noWait [], ⟨hidle, trivial⟩, hget⟩)
    -- the get that drains the pipe takes every dummy thread off the queue
    have htaken : ∀ x, .dummy x ∈ r.writers → .dummy x ∈ xferList := fun x hx => by
      by_contra hn
      simpa [hnil] using hv.kept x hx hn
    refine ⟨fun x hx => ?_, ?_⟩
    · have := hv.abort _ (htaken x (hkeep x hx))
      rwa [abortable, hold x hx] at this
    rcases Nat.lt_or_ge (room s) data.length with hlt | hle
    · obtain ⟨hdr, -⟩ := hslow hlt
      refine .inr ⟨?_, ?_⟩
      · have hdone := hu.drained hused hnil
        have hdata : bytesOf (.block s.blocks) u.accepted = data := by
          rcases hu.order with ⟨hf, -⟩ | ⟨-, hf⟩
          · rw [hdone] at hf
            cases hf
          · exact hf
        have := hv.bytes d hdr
        rw [(hv.taken d (htaken d hdr)).1, hnew, hbytes, hdata, append_nil] at this
        exact (append_cancel_left ((take_append_drop _ _).trans this)).symm
      · have := hv.abort _ (htaken d hdr)
        rwa [abortable, hnew] at this
    · exact .inl hle
  · rintro ⟨hwait, hroom⟩ u hu
    have hstart : Carried s.blocks d (.memPoolFree s.blocks block ::
        (sem.toList.map (.semGive s.blocks) ++ [.stackPush s.blocks d])) data r := by
      rcases Nat.lt_or_ge (room s) data.length with hlt | hle
      · obtain ⟨hstale, hact⟩ := hroom.resolve_left (Nat.not_le.mpr hlt)
        obtain ⟨hdr, hfin, hmem⟩ := hslow hlt
        refine ⟨hr, fun x hx => ?_, .inl ⟨by rw [hfin, hops], hdr, by rw [hnew], ?_, ?_⟩⟩
        · rcases hmem _ hx with he | hx
          · obtain rfl : x = d := by simpa using he
            rw [hnew]
            exact hact
          · rw [hold x hx]
            exact hwait x hx
        · rw [hnew]
          rfl
        · rw [hnew, hbytes, hstale, take_append_drop]
      · obtain ⟨hsub, hfin⟩ := hfast hle
        refine ⟨hr, fun x hx => ?_, .inr ⟨?_, fun x hx => ?_, ?_⟩⟩
        · rw [hold x (hsub.subset hx)]
          exact hwait x (hsub.subset hx)
        · rw [hfin, opsOf_append, hops]
          refine filter_eq_self.mpr fun op hop => ?_
          simpa using id_of_mem_finishOps (a := (⟨[], true, block, sem, s.blocks⟩ : Async A B S)) hop
        · rw [hold x (hsub.subset hx)]
          exact (h.dummies x (hsub.subset hx)).ne
        · rw [hbytes, take_of_length_le hle]
    exact (hu.invariant (fun s a t h => h.step) hstart).delivering

end

theorem block_put_delivers_iff_six : ∃ r : State Nat (Fin 2) Unit Unit Unit,
    kPipeBlockPut (initState (fun _ => 0) 4 (fun _ => 0) (fun _ => ⟨[5, 6], true, (), none, 0⟩) [()])
      0 () [1, 2, 3, 4, 5, 6] (some ()) [] = some r ∧
    ∀ u, GuardedRun Pipe.step (fun s a => Allowed s a ∧ Sync a) r u →
      Delivering 0 [.memPoolFree 0 (), .semGive 0 (), .stackPush 0 ()] [1, 2, 3, 4, 5, 6] u :=
  ⟨_, rfl, (block_put_delivers_iff (nodup_singleton ()) .refl ⟨rfl, rfl⟩ rfl rfl).mpr
    ⟨by simp [initState], .inr ⟨rfl, rfl⟩⟩⟩

/-- A block of six bytes for a buffer of four, with a descriptor that points at nothing: one get reads
four bytes, the pipe is empty, and the block is freed. -/
theorem block_put_loses_data : ∃ r u : State Nat (Fin 2) Unit Unit Unit,
    kPipeBlockPut (initState (fun _ => 0) 4 (fun _ => 0) (fun _ => ⟨[], true, (), none, 0⟩) [()])
      0 () [1, 2, 3, 4, 5, 6] (some ()) [] = some r ∧
    Pipe.step r (.get 1 10 0 .noWait []) = some u ∧ u.received.map Prod.snd = [1, 2, 3, 4] ∧
    u.pipe.bytesUsed = 0 ∧ u.writers = [] ∧
    u.finished = [.memPoolFree 0 (), .semGive 0 (), .stackPush 0 ()] :=
  ⟨_, _, rfl, rfl, rfl, rfl, rfl, rfl⟩

end

variable {W : Type}

theorem requested_spec (bytes : W → Nat) (n : Nat) (q : List W) (k : Nat) :
    requested bytes n k q ≤ k + (q.map bytes).sum ∧
      (n ≤ requested bytes n k q ∨ requested bytes n k q = k + (q.map bytes).sum) := by
  induction q generalizing k with
  | nil => simp [requested]
  | cons w q ih =>
    obtain ⟨hle, hor⟩ := ih (k + bytes w)
    simp only [requested, map_cons, sum_cons]
    split_ifs with hn <;> omega

theorem pipeXferPrepare_noWait {bytes : W → Nat} {q : List W} {minXfer n space total : Nat}
    (hmin : minXfer ≤ n) (htotal : (q.map bytes).sum + space = total) :
    pipeXferPrepare bytes q space n minXfer .noWait =
      if total < minXfer then none else some (workingSet bytes n 0 q) := by
  have hspec := requested_spec bytes n q 0
  simp only [pipeXferPrepare, true_and]
  congr 1
  exact propext (by omega)

variable [DecidableEq T] [DecidableEq D]

/-- Only `res` is returned: nothing is copied, and nobody is taken off a wait queue. -/
structure Refused (s r : State A T D B S) (res : Result A T) : Prop where
  returned : r.returned = s.returned ++ [res]
  pipe : r.pipe = s.pipe
  queues : r.readers = s.readers ∧ r.writers = s.writers
  copied : r.accepted = s.accepted ∧ r.received = s.received

structure PutAtomic (s : State A T D B S) (t : T) (data : List A) (minXfer : Nat)
    (r : State A T D B S) : Prop where
  refused : room s < minXfer → Refused s r (.put t (s.made t) data minXfer 0 eIo)
  moved : minXfer ≤ room s → ∃ n, minXfer ≤ n ∧ n ≤ data.length ∧
    r.returned = s.returned ++ [.put t (s.made t) data minXfer n 0] ∧
    bytesOf (s.now t) r.accepted = data.take n

def supply (s : State A T D B S) : Nat := left s s.writers + s.pipe.bytesUsed

structure GetAtomic (s : State A T D B S) (t : T) (bytesToRead minXfer : Nat)
    (r : State A T D B S) : Prop where
  refused : supply s < minXfer → Refused s r (.get t (s.made t) bytesToRead minXfer [] 0 eIo)
  moved : minXfer ≤ supply s → ∃ stored, minXfer ≤ stored.length ∧
    stored.length ≤ bytesToRead ∧ r.returned = s.returned ++
      [.get t (s.made t) bytesToRead minXfer stored stored.length 0] ∧
    bytesOf (s.now t) r.received = stored

variable {s : State A T D B S} {t : T} {data : List A} {minXfer bytesToRead : Nat}
  {buffer : Nat → A} {size : Nat} {prio : Writer T D → Int} {async : D → Async A B S}
  {free : List D} {expired : List T}

theorem Inv.putAtomic (h : Inv none none s) (ht : s.putCall t = none ∧ s.getCall t = none)
    (hmin : minXfer ≤ data.length) :
    PutAtomic s t data minXfer (kPipePut s t data minXfer .noWait expired) := by
  unfold kPipePut kPipePutInternal
  rw [pipeXferPrepare_noWait hmin (rfl : _ = room s)]
  by_cases hroom : room s < minXfer
  · rw [if_pos hroom]
    exact ⟨fun _ => ⟨rfl, rfl, ⟨rfl, rfl⟩, rfl, rfl⟩, fun hle => absurd hroom (not_lt.mpr hle)⟩
  · rw [if_neg hroom]
    refine ⟨fun hlt => absurd hlt hroom, fun hle => ?_⟩
    have h1 : Inv (some (s.now t)) none s := { h with puts := h.puts.start ht.1 }
    obtain ⟨_, _, _, _, _, _, rest, heq, -, hwhole, -, -, hrest, -⟩ :=
      h1.putData expired (rfl : workingSet _ data.length 0 _ = _)
    have hnext : bytesOf (s.now t) s.accepted = [] := h.puts.bytesOf_next ht.1
    rw [hnext, nil_append] at hwhole
    have hlen := congrArg length hrest
    rw [length_drop] at hlen
    dsimp only
    rw [heq, if_pos rfl]
    dsimp only
    split_ifs with hdone
    · refine ⟨data.length, hmin, le_rfl, rfl, ?_⟩
      rw [eq_nil_of_length_eq_zero hdone, append_nil] at hwhole
      rw [take_length]
      exact hwhole
    · refine ⟨data.length - rest.length, by omega, Nat.sub_le _ _, ?_, ?_⟩
      · rw [pipeReturnCode, if_pos (by omega), Pipe.returnPut]
      · rw [← hwhole, length_append, Nat.add_sub_cancel, take_left]
        rfl

theorem Inv.getAtomic_iff (h : Inv none none s) (ht : s.putCall t = none ∧ s.getCall t = none)
    (hmin : minXfer ≤ bytesToRead) :
    (∃ r, kPipeGet s t bytesToRead minXfer .noWait expired = some r ∧
      GetAtomic s t bytesToRead minXfer r) ↔
    supply s < minXfer ∨
      ∀ w ∈ (workingSet (fun w => (descBytes s w).length) bytesToRead 0 s.writers).1,
        abortable s w := by
  unfold kPipeGet
  rw [pipeXferPrepare_noWait hmin (rfl : _ = supply s)]
  by_cases hroom : supply s < minXfer
  · rw [if_pos hroom]
    exact iff_of_true ⟨_, rfl, fun _ => ⟨rfl, rfl, ⟨rfl, rfl⟩, rfl, rfl⟩,
      fun hle => absurd hroom (not_lt.mpr hle)⟩ (.inl hroom)
  · rw [if_neg hroom, or_iff_right hroom]
    dsimp only
    rw [← all_eq_true]
    by_cases habort : (workingSet (fun w => (descBytes s w).length) bytesToRead 0 s.writers).1.all
        (abortable s) = true
    · rw [if_pos habort]
      refine iff_of_true ⟨_, rfl, fun hlt => absurd hlt hroom, fun hle => ?_⟩ habort
      have h1 : Inv none (some (s.now t)) s := { h with gets := h.gets.start ht.2 }
      obtain ⟨_, stored, heq, -, hG, -, hless, -⟩ :=
        h1.getData (n := bytesToRead) (h.gets.bytesOf_next ht.2) expired rfl
      obtain ⟨_, _, _, _, _, _, _, rfl⟩ := hG.frame
      have hnow : ∀ writers, (expire { s with writers } expired).now t = s.now t := fun _ => rfl
      have hbytes := hG.bytes
      have hlen := hG.le
      rw [hnow, heq, if_pos rfl]
      dsimp only
      split_ifs with hdone
      · exact ⟨stored, by omega, hlen, rfl, hbytes⟩
      · have := (hless (by omega)).1
        unfold supply at hle
        refine ⟨stored, by omega, hlen, ?_, hbytes⟩
        rw [pipeReturnCode, if_pos (by omega), Pipe.returnGet, Nat.sub_sub_self hlen]
        rfl
    · rw [if_neg habort]
      refine iff_of_false ?_ habort
      rintro ⟨r, hr, -⟩
      cases hr

end Zephyr.Pipe
