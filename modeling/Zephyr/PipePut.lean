import Zephyr.Pipe

/-! The circular buffer of a pipe and the accounts of the bytes that went through it. In a write the
readers that wait are served in order, then the buffer is filled. -/

namespace Zephyr.Pipe

open List

variable {A : Type} {p : KPipe A} {src : List A} {n : Nat}

def KPipe.contents (p : KPipe A) : List A := ringContents p.buffer p.size p.readIndex p.bytesUsed

structure KPipe.Wf (p : KPipe A) : Prop where
  used : p.bytesUsed ≤ p.size
  read : p.readIndex < p.size ∨ p.readIndex = 0
  write : p.writeIndex = (p.readIndex + p.bytesUsed) % p.size

@[simp] theorem KPipe.length_contents (p : KPipe A) : p.contents.length = p.bytesUsed :=
  length_ringContents

theorem KPipe.contents_eq_nil (hp : p.bytesUsed = 0) : p.contents = [] :=
  eq_nil_of_length_eq_zero (p.length_contents.trans hp)

theorem KPipe.Wf.readIndex_le (h : p.Wf) : p.readIndex ≤ p.size := by
  have := h.read
  omega

theorem KPipe.Wf.writeIndex_le (h : p.Wf) : p.writeIndex ≤ p.size := by
  rw [h.write]
  rcases Nat.eq_zero_or_pos p.size with h0 | hpos
  · have := h.used
    have := h.readIndex_le
    rw [h0]
    omega
  · exact (Nat.mod_lt _ hpos).le

theorem mod_lt_or_eq_zero {i size : Nat} (h : i ≤ size) : i % size < size ∨ i % size = 0 := by
  rcases Nat.eq_zero_or_pos size with rfl | hpos
  · exact .inr (by rw [Nat.mod_zero]; omega)
  · exact .inl (Nat.mod_lt _ hpos)

theorem putRound_spec (src : List A) (h : p.Wf) {k : Nat}
    (hk : k = min (p.size - p.bytesUsed) (p.size - p.writeIndex)) :
    (putRound p src).1.Wf ∧ (putRound p src).2 = src.drop k ∧
      (putRound p src).1.contents = p.contents ++ src.take k ∧ (putRound p src).1.size = p.size ∧
      (putRound p src).1.writeIndex = (p.writeIndex + (src.take k).length) % p.size := by
  have hlen : (src.take k).length ≤ k := length_take_le _ _
  have hw := h.writeIndex_le
  have hu := h.used
  have hfree : p.bytesUsed + (src.take k).length ≤ p.size := by omega
  have hend : p.writeIndex + (src.take k).length ≤ p.size := by omega
  have hwrap := wrap_eq_mod hend
  have hwrite : (p.writeIndex + (src.take k).length) % p.size =
      (p.readIndex + (p.bytesUsed + (src.take k).length)) % p.size := by
    rw [h.write, Nat.mod_add_mod, Nat.add_assoc]
  simp only [putRound, pipeXfer, ← hk, hwrap]
  exact ⟨⟨hfree, h.read, hwrite⟩, trivial, ringContents_writeRun h.write hfree hend, trivial, trivial⟩

theorem pipeBufferPut_spec (src : List A) (h : p.Wf) :
    (pipeBufferPut p src).1.Wf ∧ (pipeBufferPut p src).2 = src.drop (p.size - p.bytesUsed) ∧
      (pipeBufferPut p src).1.contents = p.contents ++ src.take (p.size - p.bytesUsed) ∧
      (pipeBufferPut p src).1.size = p.size := by
  obtain ⟨h1, hrest, hc, hsize, hwi⟩ := putRound_spec src h rfl
  obtain ⟨h2, hrest2, hc2, hsize2, -⟩ := putRound_spec (putRound p src).2 h1 rfl
  have hused := congrArg length hc
  simp only [KPipe.length_contents, length_append] at hused
  generalize hk : min (p.size - p.bytesUsed) (p.size - p.writeIndex) = k at *
  generalize hm : min ((putRound p src).1.size - (putRound p src).1.bytesUsed)
    ((putRound p src).1.size - (putRound p src).1.writeIndex) = m at *
  -- the second round goes on behind the end of the array, or has nothing to copy or no room
  have htotal : src.length ≤ k ∨ k + m = p.size - p.bytesUsed := by
    rcases Nat.lt_or_ge k src.length with hlt | hle
    · right
      rw [length_take, Nat.min_eq_left hlt.le] at hused hwi
      rw [← hm, hused, hwi, ← Nat.sub_sub]
      exact two_rounds h.writeIndex_le (Nat.sub_le _ _) hk
    · exact .inl hle
  simp only [pipeBufferPut]
  refine ⟨h2, ?_, ?_, hsize2.trans hsize⟩
  · rw [hrest2, hrest, drop_drop]
    rcases htotal with hle | ht
    · rw [drop_eq_nil_of_le (by omega), drop_eq_nil_of_le (by omega)]
    · rw [ht]
  · have htake : src.take k ++ (src.drop k).take m = src.take (p.size - p.bytesUsed) := by
      rw [← take_add]
      rcases htotal with hle | ht
      · rw [take_of_length_le (by omega), take_of_length_le (by omega)]
      · rw [ht]
    rw [hc2, hrest, hc, append_assoc, htake]

theorem take_readRun (buf : Nat → A) (pos m : Nat) :
    (readRun buf pos m).take n = readRun buf pos (min n m) := by
  simp [readRun, ← map_take]

theorem getRound_spec (h : p.Wf) {k : Nat}
    (hk : k = min n (min p.bytesUsed (p.size - p.readIndex))) :
    (getRound p n).1.Wf ∧ (getRound p n).2 = p.contents.take k ∧
      (getRound p n).1.contents = p.contents.drop k ∧ (getRound p n).1.size = p.size ∧
      (getRound p n).1.readIndex = (p.readIndex + k) % p.size := by
  have hr := h.readIndex_le
  have hu := h.used
  have hend : p.readIndex + k ≤ p.size := by omega
  have hle : k ≤ p.bytesUsed := by omega
  have hcopied : (readRun p.buffer p.readIndex (min p.bytesUsed (p.size - p.readIndex))).take n =
      readRun p.buffer p.readIndex k := by rw [take_readRun, hk]
  have hsplit : ringContents p.buffer p.size p.readIndex p.bytesUsed = _ :=
    ringContents_eq_readRun_append hend hle
  have hwrite : p.writeIndex = ((p.readIndex + k) % p.size + (p.bytesUsed - k)) % p.size := by
    rw [h.write, Nat.mod_add_mod, show p.readIndex + k + (p.bytesUsed - k) =
      p.readIndex + p.bytesUsed by omega]
  simp only [getRound, pipeXfer, hcopied, length_readRun, wrap_eq_mod hend, KPipe.contents]
  refine ⟨⟨(Nat.sub_le _ _).trans hu, mod_lt_or_eq_zero hend, hwrite⟩, ?_, ?_, trivial, trivial⟩
  · rw [hsplit, take_left' length_readRun]
  · rw [hsplit, drop_left' length_readRun]

theorem pipeBufferGet_spec (h : p.Wf) :
    (pipeBufferGet p n).1.Wf ∧ (pipeBufferGet p n).2 = p.contents.take n ∧
      (pipeBufferGet p n).1.contents = p.contents.drop n ∧
      (pipeBufferGet p n).1.size = p.size := by
  obtain ⟨h1, hget, hc, hsize, hri⟩ := getRound_spec (n := n) h rfl
  obtain ⟨h2, hget2, hc2, hsize2, -⟩ :=
    getRound_spec (n := n - (getRound p n).2.length) h1 rfl
  have hused := congrArg length hc
  have hlen := congrArg length hget
  simp only [KPipe.length_contents, length_drop, length_take] at hused hlen
  generalize hk : min n (min p.bytesUsed (p.size - p.readIndex)) = k at *
  generalize hm : min (n - (getRound p n).2.length) (min (getRound p n).1.bytesUsed
    ((getRound p n).1.size - (getRound p n).1.readIndex)) = m at *
  have htotal : k + m = min n p.bytesUsed := by
    rw [← Nat.min_assoc] at hk
    have hkle : k ≤ p.bytesUsed := by omega
    rw [← hm, hused, hlen, hri, Nat.min_eq_left hkle, ← Nat.min_assoc, Nat.sub_min_sub_right]
    exact two_rounds h.readIndex_le ((Nat.min_le_right _ _).trans h.used) hk
  simp only [pipeBufferGet]
  refine ⟨h2, ?_, ?_, hsize2.trans hsize⟩
  · rw [hget2, hc, hget, ← take_add, htotal, ← p.length_contents, ← take_eq_take_min]
  · rw [hc2, hc, drop_drop, htotal]
    rcases Nat.le_total n p.bytesUsed with hle | hle
    · rw [Nat.min_eq_left hle]
    · rw [Nat.min_eq_right hle, drop_eq_nil_of_le (by simp), drop_eq_nil_of_le (by simpa using hle)]

section

variable {T : Type} [DecidableEq T]

def putResults (returned : List (Result A T)) : List (T × Nat × List A × Nat) :=
  returned.filterMap fun
    | .put t k data _ bytesWritten _ => some (t, k, data, bytesWritten)
    | .get _ _ _ _ _ _ _ => none

def getResults (returned : List (Result A T)) : List (T × Nat × List A × Nat) :=
  returned.filterMap fun
    | .get t k _ _ stored bytesRead _ => some (t, k, stored, bytesRead)
    | .put _ _ _ _ _ _ => none

variable {D B S : Type}

abbrev PutBooks (cur : Option (Tag T)) (s : State A T D B S) : Prop :=
  Ledger (fun (c : PutCall A) bytes => bytes ++ c.rest = c.data)
    (fun (r : List A × Nat) bytes => r.2 ≤ r.1.length ∧ bytes = r.1.take r.2) cur s.putCall s.made
    (putResults s.returned) s.blocks s.accepted

abbrev GetBooks (cur : Option (Tag T)) (s : State A T D B S) : Prop :=
  Ledger (fun (c : GetCall A) bytes =>
      bytes = c.stored ∧ c.stored.length + c.bytesToXfer = c.bytesToRead)
    (fun (r : List A × Nat) bytes => bytes = r.1 ∧ r.2 = r.1.length) cur s.getCall s.made
    (getResults s.returned) 0 s.received

omit [DecidableEq T] in
def Stream (s : State A T D B S) : Prop :=
  s.accepted.map Prod.snd = s.received.map Prod.snd ++ s.pipe.contents

/-- `put` and `get` are the tags of a call in progress, if any. -/
structure Inv (put get : Option (Tag T)) (s : State A T D B S) : Prop where
  puts : PutBooks put s
  gets : GetBooks get s
  stream : Stream s
  wf : s.pipe.Wf
  full : s.writers ≠ [] → s.pipe.bytesUsed = s.pipe.size
  empty : s.readers ≠ [] → s.pipe.bytesUsed = 0
  apart : s.readers = [] ∨ s.writers = []
  readers : s.readers.Nodup ∧ ∀ t ∈ s.readers, (s.getCall t).isSome
  writers : s.writers.Nodup ∧ ∀ t, .thread t ∈ s.writers → (s.putCall t).isSome
  dummies : ∀ d, .dummy d ∈ s.writers → (s.async d).id < s.blocks
  ids : ∀ d d', .dummy d ∈ s.writers → .dummy d' ∈ s.writers → (s.async d).id = (s.async d').id →
    d = d'
  free : s.free.Nodup ∧ ∀ d ∈ s.free, .dummy d ∉ s.writers

variable {put get : Option (Tag T)} {s : State A T D B S}

theorem Inv.queues (h : Inv put get s) {readers : List T} {writers : List (Writer T D)}
    (hr : readers.Sublist s.readers) (hw : writers.Sublist s.writers) :
    Inv put get { s with readers, writers } := by
  have hrn : readers ≠ [] → s.readers ≠ [] := by
    rintro hne he
    exact hne (List.sublist_nil.mp (he ▸ hr))
  have hwn : writers ≠ [] → s.writers ≠ [] := by
    rintro hne he
    exact hne (List.sublist_nil.mp (he ▸ hw))
  refine ⟨h.puts, h.gets, h.stream, h.wf, fun hn => h.full (hwn hn), fun hn => h.empty (hrn hn), ?_,
    ⟨h.readers.1.sublist hr, fun t ht => h.readers.2 t (hr.subset ht)⟩,
    ⟨h.writers.1.sublist hw, fun t ht => h.writers.2 t (hw.subset ht)⟩,
    fun d hd => h.dummies d (hw.subset hd),
    fun d d' hd hd' => h.ids d d' (hw.subset hd) (hw.subset hd'),
    ⟨h.free.1, fun d hd hf => h.free.2 d hd (hw.subset hf)⟩⟩
  rcases h.apart with he | he
  · exact .inl (List.sublist_nil.mp (he ▸ hr))
  · exact .inr (List.sublist_nil.mp (he ▸ hw))

theorem expire_eq [DecidableEq D] (s : State A T D B S) (ts : List T) :
    ∃ readers writers, expire s ts = { s with readers, writers } ∧ readers.Sublist s.readers ∧
      writers.Sublist s.writers ∧ ∀ d, .dummy d ∈ s.writers → .dummy d ∈ writers :=
  ⟨_, _, rfl, filter_sublist, filter_sublist,
    fun _ hd => List.mem_filter.mpr ⟨hd, rfl⟩⟩

def finishOps (a : Async A B S) (d : D) : List (FinishOp D B S) :=
  .memPoolFree a.id a.block :: (a.sem.toList.map (.semGive a.id) ++ [.stackPush a.id d])

def finishAll (s : State A T D B S) (done : List (Writer T D)) : List (FinishOp D B S) :=
  done.flatMap fun
    | .thread _ => []
    | .dummy d => finishOps (s.async d) d

structure Served (s r : State A T D B S) (xferList : List (Writer T D)) : Prop where
  sublist : xferList.Sublist s.writers
  abort : ∀ w ∈ xferList, abortable s w = true
  writers : ∀ d, .dummy d ∈ r.writers → .dummy d ∈ s.writers
  blocks : r.blocks = s.blocks
  async : ∀ d, r.async d = { s.async d with bytes := (r.async d).bytes }
  taken : ∀ d, .dummy d ∈ xferList → (r.async d).bytes = [] ∧ .dummy d ∉ r.writers
  kept : ∀ d, .dummy d ∈ s.writers → .dummy d ∉ xferList → .dummy d ∈ r.writers
  bytes : ∀ d, .dummy d ∈ s.writers →
    bytesOf (.block (s.async d).id) r.accepted ++ (r.async d).bytes =
      bytesOf (.block (s.async d).id) s.accepted ++ (s.async d).bytes
  other : ∀ id, (∀ d, .dummy d ∈ s.writers → (s.async d).id ≠ id) →
    bytesOf (.block id) r.accepted = bytesOf (.block id) s.accepted
  finished : r.finished = s.finished ++ finishAll s xferList

end

open Function

variable {T D B S W : Type}

theorem workingSet_spec (bytes : W → Nat) (n : Nat) (q : List W) (k : Nat) :
    (workingSet bytes n k q).1 ++ (workingSet bytes n k q).2.2 = q ∧
      (k ≤ n → k + ((workingSet bytes n k q).1.map bytes).sum ≤ n) ∧
      (workingSet bytes n k q).2.1 = (workingSet bytes n k q).2.2.head? ∧
      ∀ w, (workingSet bytes n k q).2.1 = some w →
        n < k + ((workingSet bytes n k q).1.map bytes).sum + bytes w := by
  induction q generalizing k with
  | nil => simp [workingSet]
  | cons w q ih =>
    obtain ⟨h1, h2, h3, h4⟩ := ih (k + bytes w)
    unfold workingSet
    split_ifs with hn
    · refine ⟨rfl, fun h => by simpa using h, rfl, ?_⟩
      rintro _ ⟨⟩
      simpa using hn
    · refine ⟨by simp [h1], fun _ => ?_, h3, fun w' hw' => ?_⟩
      · simp only [map_cons, sum_cons]
        omega
      · have := h4 w' hw'
        simp only [map_cons, sum_cons]
        omega

theorem workingSet_split {bytes : W → Nat} {n : Nat} {q xferList waitQ : List W} {waiter : Option W}
    (hws : workingSet bytes n 0 q = (xferList, waiter, waitQ)) :
    xferList ++ waitQ = q ∧ (xferList ++ waiter.toList).Sublist q ∧ (xferList.map bytes).sum ≤ n ∧
      waiter = waitQ.head? ∧ ∀ w, waiter = some w → n < (xferList.map bytes).sum + bytes w := by
  obtain ⟨hsplit, hsum, hhead, hmore⟩ := workingSet_spec bytes n q 0
  simp only [hws, Nat.zero_add, Nat.zero_le, forall_const] at hsplit hsum hhead hmore
  refine ⟨hsplit, ?_, hsum, hhead, hmore⟩
  rw [← hsplit, hhead]
  cases waitQ <;> simp

theorem workingSet_of_prepare {bytes : W → Nat} {q : List W} {space n minXfer : Nat}
    {timeout : Timeout} {ws : List W × Option W × List W}
    (h : pipeXferPrepare bytes q space n minXfer timeout = some ws) : workingSet bytes n 0 q = ws := by
  unfold pipeXferPrepare at h
  split_ifs at h
  exact Option.some.inj h

variable {g : Tag T} {s : State A T D B S} {data rest whole : List A} {t : T}
  {a : State A T D B S × List A} {d : D} {c : GetCall A}

theorem readerLeft_eq (ht : s.getCall t = some c) : readerLeft s t = c.bytesToXfer := by
  simp [readerLeft, ht]

theorem putToBuffer_eq (g : Tag T) (data : List A) (hw : s.pipe.Wf) : ∃ pipe : KPipe A,
    putToBuffer s g data = ({ s with
      pipe, accepted := s.accepted ++ tagged g (data.take (s.pipe.size - s.pipe.bytesUsed)) },
      data.drop (s.pipe.size - s.pipe.bytesUsed)) ∧
    pipe.Wf ∧ pipe.size = s.pipe.size ∧
    pipe.contents = s.pipe.contents ++ data.take (s.pipe.size - s.pipe.bytesUsed) := by
  obtain ⟨hw', hrest, hc, hsize⟩ := pipeBufferPut_spec data hw
  have htake : data.take (data.length - (data.length - (s.pipe.size - s.pipe.bytesUsed))) =
      data.take (s.pipe.size - s.pipe.bytesUsed) := by
    rw [take_eq_take_iff]
    omega
  refine ⟨(pipeBufferPut s.pipe data).1, ?_, hw', hsize, hc⟩
  simp only [putToBuffer, hrest, length_drop, htake]

theorem Stream.append (h : Stream s) {pipe : KPipe A} {xs : List A}
    (hc : pipe.contents = s.pipe.contents ++ xs) :
    Stream { s with pipe, accepted := s.accepted ++ tagged g xs } := by
  have := h
  unfold Stream at this ⊢
  simp only [map_append, map_snd_tagged, this, hc, append_assoc]

theorem dummy_mem_pendThread {prio : Writer T D → Int} {q : List (Writer T D)} :
    .dummy d ∈ pendThread prio (.thread t) q ↔ .dummy d ∈ q := by
  simp [mem_pendThread]

variable [DecidableEq T] {reader : Option T} {timeout : Timeout} {minXfer : Nat}

structure Putting (g : Tag T) (whole : List A) (s : State A T D B S) (a : State A T D B S × List A) :
    Prop where
  frame : ∃ getCall accepted received, a.1 = { s with getCall, accepted, received }
  puts : PutBooks (some g) a.1
  gets : GetBooks none a.1
  stream : Stream a.1
  whole : bytesOf g a.1.accepted ++ a.2 = whole
  other : ∀ x, x ≠ g → bytesOf x a.1.accepted = bytesOf x s.accepted
  calls : ∀ t, (a.1.getCall t).isSome = (s.getCall t).isSome

theorem xferToReader_eq (ht : s.getCall t = some c) : xferToReader g (s, data) t = ({ s with
      getCall := update s.getCall t (some { c with
        stored := c.stored ++ data.take c.bytesToXfer
        bytesToXfer := c.bytesToXfer - (data.take c.bytesToXfer).length })
      accepted := s.accepted ++ tagged g (data.take c.bytesToXfer)
      received := s.received ++ tagged (s.now t) (data.take c.bytesToXfer) },
      data.drop c.bytesToXfer) := by
  simp [xferToReader, pipeXfer, storeBytes, readerLeft_eq ht, ht]

theorem Putting.xferToReader (h : Putting g whole s a) (ht : (s.getCall t).isSome)
    (hc : s.pipe.contents = []) :
    Putting g whole s (xferToReader g a t) ∧ (xferToReader g a t).2 = a.2.drop (readerLeft a.1 t) ∧
      ∀ x, x ≠ t → readerLeft (Pipe.xferToReader g a t).1 x = readerLeft a.1 x := by
  obtain ⟨r, data⟩ := a
  obtain ⟨_, _, _, hr⟩ := h.frame
  obtain ⟨c, hcall⟩ := Option.isSome_iff_exists.mp ((h.calls t).trans ht)
  obtain ⟨hstored, hlen⟩ := h.gets.opened t c hcall
  have hmin : (data.take c.bytesToXfer).length ≤ c.bytesToXfer := length_take_le _ _
  have hpipe : r.pipe.contents = [] := (congrArg (·.pipe.contents) hr).trans hc
  rw [xferToReader_eq hcall, readerLeft_eq hcall]
  refine ⟨⟨⟨_, _, _, by rw [hr]⟩, h.puts.append_cur, ?_, ?_, ?_, ?_, ?_⟩, rfl, ?_⟩
  · refine h.gets.append_call hcall ⟨congrArg (· ++ _) hstored, ?_⟩
    simp only [length_append]
    omega
  · have hs := h.stream
    simp only [Stream, hpipe, append_nil] at hs
    simp [Stream, hpipe, hs]
  · simp [← h.whole]
  · intro x hx
    simp [bytesOf_tagged_of_ne hx, h.other x hx]
  · intro x
    by_cases hx : x = t
    · subst hx
      simp [ht]
    · simp [hx, h.calls x]
  · intro x hx
    simp [readerLeft, hx]

theorem Putting.foldl (h : Putting g whole s a) {ts : List T} (hnd : ts.Nodup)
    (hts : ∀ t ∈ ts, (s.getCall t).isSome) (hc : ts ≠ [] → s.pipe.contents = []) :
    Putting g whole s (ts.foldl (Pipe.xferToReader g) a) ∧
      (ts.foldl (Pipe.xferToReader g) a).2 = a.2.drop (ts.map (readerLeft a.1)).sum ∧
      ∀ x, x ∉ ts → readerLeft (ts.foldl (Pipe.xferToReader g) a).1 x = readerLeft a.1 x := by
  induction ts generalizing a with
  | nil => exact ⟨h, by simp, fun _ _ => rfl⟩
  | cons t ts ih =>
    obtain ⟨hn, hnd⟩ := nodup_cons.mp hnd
    obtain ⟨h1, hrest, hleft⟩ := h.xferToReader (hts t (by simp)) (hc (by simp))
    obtain ⟨h2, hrest2, hleft2⟩ := ih h1 hnd (fun x hx => hts x (by simp [hx])) fun _ => hc (by simp)
    have hsum : (ts.map (readerLeft (Pipe.xferToReader g a t).1)).sum =
        (ts.map (readerLeft a.1)).sum :=
      congrArg _ (map_congr_left fun x hx => hleft x (ne_of_mem_of_not_mem hx hn))
    refine ⟨h2, ?_, fun x hx => ?_⟩
    · rw [foldl_cons, hrest2, hrest, hsum, drop_drop, map_cons, sum_cons]
    · rw [mem_cons, not_or] at hx
      exact (hleft2 x hx.2).trans (hleft x hx.1)

theorem putData_spec (data : List A) (hp : PutBooks (some g) s) (hg : GetBooks none s) (hs : Stream s)
    (hw : s.pipe.Wf) {xferList : List T} (hnd : (xferList ++ reader.toList).Nodup)
    (hts : ∀ t ∈ xferList ++ reader.toList, (s.getCall t).isSome)
    (hc : xferList ++ reader.toList ≠ [] → s.pipe.contents = []) :
    ∃ pipe getCall accepted received rest,
      putData s g xferList reader data = ({ s with pipe, getCall, accepted, received }, rest) ∧
      PutBooks (some g) { s with pipe, getCall, accepted, received } ∧
      GetBooks none { s with pipe, getCall, accepted, received } ∧
      Stream { s with pipe, getCall, accepted, received } ∧ pipe.Wf ∧ pipe.size = s.pipe.size ∧
      bytesOf g accepted ++ rest = bytesOf g s.accepted ++ data ∧
      (∀ x, x ≠ g → bytesOf x accepted = bytesOf x s.accepted) ∧
      (∀ t, (getCall t).isSome = (s.getCall t).isSome) ∧
      rest = data.drop (((xferList ++ reader.toList).map (readerLeft s)).sum +
        (s.pipe.size - s.pipe.bytesUsed)) ∧
      pipe.bytesUsed = s.pipe.bytesUsed + min (s.pipe.size - s.pipe.bytesUsed)
        (data.length - ((xferList ++ reader.toList).map (readerLeft s)).sum) := by
  have h0 : Putting g (bytesOf g s.accepted ++ data) s (s, data) :=
    ⟨⟨_, _, _, rfl⟩, hp, hg, hs, rfl, fun _ _ => rfl, fun _ => rfl⟩
  obtain ⟨h1, hrest, -⟩ := h0.foldl hnd hts hc
  generalize hsum : ((xferList ++ reader.toList).map (readerLeft s)).sum = n at *
  unfold putData
  rw [foldl_append] at h1 hrest
  generalize hb : foldl (xferToReader g) (foldl (xferToReader g) (s, data) xferList)
    reader.toList = b at *
  obtain ⟨r, src⟩ := b
  obtain ⟨getCall, accepted, received, rfl⟩ := h1.frame
  obtain rfl : src = data.drop n := hrest
  obtain ⟨pipe, heq, hw', hsize, hcont⟩ := putToBuffer_eq g (data.drop n)
    (s := { s with getCall, accepted, received }) hw
  have hused := congrArg length hcont
  simp only [KPipe.length_contents, length_append, length_take, length_drop] at hused
  refine ⟨pipe, getCall,
    accepted ++ tagged g ((data.drop n).take (s.pipe.size - s.pipe.bytesUsed)), received,
    (data.drop n).drop (s.pipe.size - s.pipe.bytesUsed), ?_, h1.puts.append_cur, h1.gets,
    h1.stream.append hcont, hw', hsize, ?_, ?_, h1.calls, ?_, hused⟩
  · simp only [hb]
    exact heq
  · have := h1.whole
    simp only [bytesOf_append, bytesOf_tagged, append_assoc, take_append_drop] at this ⊢
    exact this
  · intro x hx
    rw [bytesOf_append, bytesOf_tagged_of_ne hx, append_nil]
    exact h1.other x hx
  · rw [drop_drop]

def room (s : State A T D B S) : Nat :=
  (s.readers.map (readerLeft s)).sum + (s.pipe.size - s.pipe.bytesUsed)

theorem Inv.putData [DecidableEq D] (h : Inv (some g) none s) (expired : List T)
    {xferList readers : List T}
    (hws : workingSet (readerLeft s) data.length 0 s.readers = (xferList, reader, readers)) :
    ∃ pipe getCall accepted received readers' writers rest,
      putData (expire { s with readers } expired) g xferList reader data =
        ({ s with pipe, getCall, accepted, received, readers := readers', writers }, rest) ∧
      Inv (some g) none
        { s with pipe, getCall, accepted, received, readers := readers', writers } ∧
      bytesOf g accepted ++ rest = bytesOf g s.accepted ++ data ∧
      (∀ x, x ≠ g → bytesOf x accepted = bytesOf x s.accepted) ∧
      (∀ t, (getCall t).isSome = (s.getCall t).isSome) ∧ rest = data.drop (room s) ∧
      (rest ≠ [] → pipe.bytesUsed = pipe.size ∧ readers' = []) ∧ writers.Sublist s.writers ∧
      ∀ d, .dummy d ∈ s.writers → .dummy d ∈ writers := by
  obtain ⟨hsplit, hsub, -, hhead, hmore⟩ := workingSet_split hws
  obtain ⟨R, V, heq, hR, hV, hVd⟩ := expire_eq { s with readers } expired
  dsimp only at hR hV
  have h1 : Inv (some g) none { s with readers := R, writers := V } :=
    h.queues (hR.trans (hsplit ▸ sublist_append_right _ _)) hV
  have hne : xferList ++ reader.toList ≠ [] → s.pipe.contents = [] := by
    intro hn
    refine KPipe.contents_eq_nil (h.empty fun he => hn ?_)
    exact sublist_nil.mp (he ▸ hsub)
  obtain ⟨pipe, getCall, accepted, received, rest, hput, hp, hg, hs, hw, hsize, hwhole, hother, hcalls,
    hrest, hused⟩ := putData_spec data h1.puts h1.gets h1.stream h1.wf
      (h.readers.1.sublist hsub) (fun t ht => h.readers.2 t (hsub.subset ht)) hne
  have hleft : readerLeft { s with readers := R, writers := V } = readerLeft s := rfl
  rw [hleft] at hrest hused
  dsimp only at hrest hused hsize
  -- all readers are served unless one is left that takes the last of the data
  have hcases : readers = [] ∧ xferList ++ reader.toList = s.readers ∨
      s.readers ≠ [] ∧ data.length < ((xferList ++ reader.toList).map (readerLeft s)).sum ∧
        ((xferList ++ reader.toList).map (readerLeft s)).sum ≤
          (s.readers.map (readerLeft s)).sum := by
    cases readers with
    | nil =>
      obtain rfl : reader = none := by simpa using hhead
      exact .inl ⟨rfl, by simpa using hsplit⟩
    | cons w ws =>
      obtain rfl : reader = some w := by simpa using hhead
      have := hmore w rfl
      simp only [← hsplit, map_append, sum_append, Option.toList_some, map_cons,
        map_nil, sum_cons, sum_nil]
      exact .inr ⟨by simp, by omega, by omega⟩
  have hroom : rest = data.drop (room s) := by
    rcases hcases with ⟨-, hall⟩ | ⟨-, hlt, hle⟩
    · rw [hrest, hall]
      rfl
    · rw [hrest, drop_eq_nil_of_le (by omega), room, drop_eq_nil_of_le (by omega)]
  rw [heq, hput]
  refine ⟨_, _, _, _, _, _, _, rfl, ?_, hwhole, hother, hcalls, hroom, ?_, hV, hVd⟩
  · refine ⟨hp, hg, hs, hw, fun hn => ?_, fun hn => ?_, h1.apart, ⟨h1.readers.1, fun t ht => ?_⟩,
      h1.writers, h1.dummies, h1.ids, h1.free⟩
    · have := h1.full hn
      dsimp only at this ⊢
      omega
    · have := h1.empty hn
      rcases hcases with ⟨rfl, -⟩ | ⟨-, hlt, -⟩
      · exact absurd (sublist_nil.mp hR) hn
      · dsimp only at this ⊢
        omega
    · exact (hcalls t).trans (h1.readers.2 t ht)
  · intro hn
    rcases hcases with ⟨rfl, -⟩ | ⟨-, hlt, -⟩
    · refine ⟨?_, sublist_nil.mp hR⟩
      have hlen : 0 < rest.length := length_pos_iff.mpr hn
      have := h.wf.used
      rw [hrest, length_drop] at hlen
      omega
    · rw [hrest, drop_eq_nil_of_le (by omega)] at hn
      exact absurd rfl hn

theorem Inv.returnPut (h : Inv (some (s.now t)) none s) (ht : s.getCall t = none)
    {minXfer b : Nat} {code : Int} (hb : b ≤ data.length)
    (hbytes : bytesOf (s.now t) s.accepted = data.take b) :
    Inv none none (returnPut s t data minXfer b code) := by
  have hnone := (h.puts.apart t _ rfl).2
  refine { h with puts := ?_, gets := ?_, writers := ⟨h.writers.1, ?_⟩ }
  · have := h.puts.finish (r := (data, b)) ⟨hb, hbytes⟩
    simpa [PutBooks, Pipe.returnPut, putResults] using this
  · have := h.gets.skip ht
    simpa [GetBooks, Pipe.returnPut, getResults] using this
  · intro x hx
    have hxt : x ≠ t := by
      rintro rfl
      simpa [hnone] using h.writers.2 x hx
    simpa [Pipe.returnPut, hxt] using h.writers.2 x hx

theorem Inv.pendPut (h : Inv (some (s.now t)) none s)
    (hwhole : bytesOf (s.now t) s.accepted ++ rest = data) (hr : s.readers = [])
    (hfull : s.pipe.bytesUsed = s.pipe.size) (prio : Writer T D → Int) :
    Inv none none { s with
      putCall := update s.putCall t (some ⟨data, rest, minXfer, timeout⟩)
      writers := pendThread prio (.thread t) s.writers } := by
  have hnone := (h.puts.apart t _ rfl).2
  have ht : .thread t ∉ s.writers := fun hf => by simpa [hnone] using h.writers.2 t hf
  refine ⟨h.puts.pend hwhole, h.gets, h.stream, h.wf, fun _ => hfull, h.empty, .inl hr, h.readers,
    ⟨nodup_pendThread h.writers.1 ht, fun x hx => ?_⟩,
    fun d hd => h.dummies d (dummy_mem_pendThread.mp hd),
    fun d d' hd hd' => h.ids d d' (dummy_mem_pendThread.mp hd) (dummy_mem_pendThread.mp hd'),
    ⟨h.free.1, fun d hd hf => h.free.2 d hd (dummy_mem_pendThread.mp hf)⟩⟩
  by_cases hxt : x = t
  · simp [hxt]
  · have := h.writers.2 x (by simpa [hxt, mem_pendThread] using hx)
    simpa [hxt] using this

theorem Served.of_eq {r : State A T D B S} (hw : ∀ d, .dummy d ∈ r.writers ↔ .dummy d ∈ s.writers)
    (hb : r.blocks = s.blocks) (ha : r.async = s.async) (hf : r.finished = s.finished)
    (hbytes : ∀ id, bytesOf (.block id) r.accepted = bytesOf (.block id) s.accepted) :
    Served s r [] := by
  refine ⟨nil_sublist _, by simp, fun d => (hw d).mp, hb, fun d => by rw [ha], by simp,
    fun d hd _ => (hw d).mpr hd, fun d _ => ?_, fun id _ => hbytes id, by simp [hf, finishAll]⟩
  rw [ha, hbytes]

theorem Inv.put [DecidableEq D] (h : Inv none none s) (ht : s.putCall t = none ∧ s.getCall t = none)
    {expired : List T} :
    Inv none none (kPipePut s t data minXfer timeout expired) ∧
      Served s (kPipePut s t data minXfer timeout expired) [] := by
  have h1 : Inv (some (s.now t)) none s := { h with puts := h.puts.start ht.1 }
  have hnext : bytesOf (s.now t) s.accepted = [] := h.puts.bytesOf_next ht.1
  unfold kPipePut kPipePutInternal
  cases hprep : pipeXferPrepare (readerLeft s) s.readers (s.pipe.size - s.pipe.bytesUsed) data.length
      minXfer timeout with
  | none =>
    exact ⟨h1.returnPut ht.2 (Nat.zero_le _) (by simpa using hnext),
      .of_eq (fun _ => .rfl) rfl rfl rfl fun _ => rfl⟩
  | some ws =>
    obtain ⟨xferList, reader, readers⟩ := ws
    obtain ⟨pipe, getCall, accepted, received, readers, writers, _, heq, hr, hwhole, hother, hcalls, -,
      hfull, hsub, hkept⟩ := h1.putData expired (workingSet_of_prepare hprep)
    rw [hnext, nil_append] at hwhole
    have hget := (hcalls t).trans (congrArg Option.isSome ht.2)
    have hblock : ∀ id, bytesOf (.block id) accepted = bytesOf (.block id) s.accepted :=
      fun id => hother _ (by simp [State.now])
    have hdummy : ∀ d, .dummy d ∈ writers ↔ .dummy d ∈ s.writers :=
      fun d => ⟨(hsub.subset ·), hkept d⟩
    simp only [heq]
    split_ifs with hdone hno
    · refine ⟨hr.returnPut (by simpa using hget) le_rfl ?_, .of_eq hdummy rfl rfl rfl hblock⟩
      rw [eq_nil_of_length_eq_zero hdone, append_nil] at hwhole
      rw [take_length]
      exact hwhole
    · refine ⟨hr.returnPut (by simpa using hget) (Nat.sub_le _ _) ?_,
        .of_eq hdummy rfl rfl rfl hblock⟩
      rw [← hwhole, length_append, Nat.add_sub_cancel, take_left]
      rfl
    · obtain ⟨hfull, hempty⟩ := hfull fun hn => hdone (by simp [hn])
      exact ⟨Inv.pendPut (s := { s with pipe, getCall, accepted, received, readers, writers }) hr hwhole
        hempty hfull s.prio, .of_eq (fun d => dummy_mem_pendThread.trans (hdummy d)) rfl rfl rfl hblock⟩

theorem Inv.asyncFinish (h : Inv none none s) (hd : d ∉ s.free) (hw : .dummy d ∉ s.writers) :
    Inv none none (pipeAsyncFinish s d) := by
  refine { h with free := ⟨nodup_cons.mpr ⟨hd, h.free.1⟩, fun x hx => ?_⟩ }
  rcases mem_cons.mp hx with rfl | hx
  · exact hw
  · exact h.free.2 x hx

theorem Inv.pendDummy (h : Inv none none s) (hd : d ∉ s.free) (hw : .dummy d ∉ s.writers)
    (hr : s.readers = []) (hfull : s.pipe.bytesUsed = s.pipe.size) (hid : (s.async d).id < s.blocks)
    (hnew : ∀ x, .dummy x ∈ s.writers → (s.async x).id ≠ (s.async d).id) (prio : Writer T D → Int) :
    Inv none none { s with writers := pendThread prio (.dummy d) s.writers } := by
  have hdummy : ∀ x, .dummy x ∈ pendThread prio (.dummy d) s.writers →
      x = d ∨ .dummy x ∈ s.writers :=
    fun x hx => by simpa [mem_pendThread] using hx
  refine ⟨h.puts, h.gets, h.stream, h.wf, fun _ => hfull, h.empty, .inl hr, h.readers,
    ⟨nodup_pendThread h.writers.1 hw, fun x hx => ?_⟩, fun x hx => ?_, fun x y hx hy he => ?_,
    h.free.1, fun x hx hf => ?_⟩
  · exact h.writers.2 x (by simpa [mem_pendThread] using hx)
  · rcases hdummy x hx with rfl | hx
    · exact hid
    · exact h.dummies x hx
  · rcases hdummy x hx with hxd | hx' <;> rcases hdummy y hy with hyd | hy'
    · rw [hxd, hyd]
    · exact absurd (hxd ▸ he.symm) (hnew y hy')
    · exact absurd (hyd ▸ he) (hnew x hx')
    · exact h.ids x y hx' hy' he
  · rcases hdummy x hf with rfl | hf
    · exact hd hx
    · exact h.free.2 x hx hf

theorem Inv.blockPut [DecidableEq D] (h : Inv none none s) {free : List D}
    (hfree : s.free = d :: free) (t : T) (block : B) (data : List A) (sem : Option S)
    (expired : List T) :
    ∃ r, kPipeBlockPut s t block data sem expired = some r ∧ Inv none none r ∧
      r.blocks = s.blocks + 1 ∧ r.putCall = s.putCall ∧
      (∀ x, (r.getCall x).isSome = (s.getCall x).isSome) ∧ r.async = update s.async d
        { s.async d with block, sem, id := s.blocks } ∧
      bytesOf (.block s.blocks) r.accepted = data.take (room s) ∧
      (∀ x, .dummy x ∈ s.writers → .dummy x ∈ r.writers) ∧
      (data.length ≤ room s → r.writers.Sublist s.writers ∧
        r.finished = s.finished ++ .memPoolFree s.blocks block ::
          (sem.toList.map (.semGive s.blocks) ++ [.stackPush s.blocks d])) ∧
      (room s < data.length → .dummy d ∈ r.writers ∧ r.finished = s.finished ∧
        ∀ w ∈ r.writers, w = .dummy d ∨ w ∈ s.writers) := by
  have hmem : d ∈ s.free := by simp [hfree]
  have hw := h.free.2 d hmem
  have hne : ∀ x, .dummy x ∈ s.writers → x ≠ d := by
    rintro x hx rfl
    exact hw hx
  obtain ⟨hdf, hnd⟩ := nodup_cons.mp (hfree ▸ h.free.1)
  have h0 : Inv (some (.block s.blocks)) none { s with
      free
      async := update s.async d { s.async d with block, sem, id := s.blocks }
      prio := update s.prio (.dummy d) (s.prio (.thread t))
      blocks := s.blocks + 1 } := by
    refine { h with
      puts := h.puts.startBlock, dummies := fun x hx => ?_, ids := fun x y hx hy he => ?_
      free := ⟨hnd, fun x hx => h.free.2 x (by simp [hfree, hx])⟩ }
    · simp only [update_of_ne (hne x hx)]
      exact (h.dummies x hx).trans (Nat.lt_succ_self _)
    · simp only [update_of_ne (hne x hx), update_of_ne (hne y hy)] at he
      exact h.ids x y hx hy he
  obtain ⟨_, _, accepted, _, _, writers, rest, heq, hr, hwhole, -, hcalls, hrest, hfull, hsub,
    hkept⟩ := h0.putData expired (rfl : workingSet _ data.length 0 _ = _)
  dsimp only at hsub hkept hwhole hcalls
  have hroom : rest = data.drop (room s) := hrest
  have hdw : .dummy d ∉ writers := fun hf => hw (hsub.subset hf)
  have hbytes : bytesOf (.block s.blocks) accepted = data.take (room s) := by
    rw [h.puts.bytesOf_nextBlock, nil_append, hroom] at hwhole
    exact append_cancel_right (hwhole.trans (take_append_drop _ _).symm)
  have hinv := { hr with puts := hr.puts.finishBlock (Nat.lt_succ_self _) : Inv none none _ }
  have hlen : rest.length = 0 ↔ data.length ≤ room s := by
    rw [hroom, length_drop]
    omega
  unfold kPipeBlockPut
  rw [hfree]
  refine ⟨_, rfl, ?_⟩
  simp only [kPipePutInternal, writerTag, update_self, pipeXferPrepare, reduceCtorEq, false_and,
    if_false, heq]
  split_ifs with hdone
  · refine ⟨hinv.asyncFinish hdf hdw, rfl, rfl, hcalls, rfl, hbytes, hkept, fun _ => ⟨hsub, ?_⟩,
      fun hlt => ?_⟩
    · simp only [pipeAsyncFinish, update_self]
    · exact absurd (hlen.mp hdone) (Nat.not_le.mpr hlt)
  · obtain ⟨hf, he⟩ := hfull fun hn => hdone (by simp [hn])
    have hpend := hinv.pendDummy hdf hdw he hf (by simp) (fun x hx => ?_)
      (update s.prio (.dummy d) (s.prio (.thread t)))
    · refine ⟨hpend, rfl, rfl, hcalls, rfl, hbytes,
        fun x hx => mem_pendThread.mpr (.inr (hkept x hx)), fun hle => ?_,
        fun _ => ⟨mem_pendThread.mpr (.inl rfl), rfl, fun w hw => ?_⟩⟩
      · exact absurd (hlen.mpr hle) hdone
      · exact (mem_pendThread.mp hw).imp_right (hsub.subset ·)
    · have hxs := hsub.subset hx
      simp only [update_self, update_of_ne (hne x hxs)]
      exact (h.dummies x hxs).ne

end Zephyr.Pipe
