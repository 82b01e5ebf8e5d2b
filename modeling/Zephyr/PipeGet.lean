import Zephyr.PipePut

/-! Reading from a pipe: the buffer first, then the writers that wait, which refill the buffer with
what the reader does not take. -/

namespace Zephyr.Pipe

open List

variable {A T D B S : Type}

structure Flight (all : List (Writer T D)) (s : State A T D B S) : Prop where
  thread : ∀ t, .thread t ∈ all → (s.putCall t).isSome
  dummy : ∀ d, .dummy d ∈ all → (s.async d).id < s.blocks
  ids : ∀ d d', .dummy d ∈ all → .dummy d' ∈ all → (s.async d).id = (s.async d').id → d = d'

def dummiesOf (done : List (Writer T D)) : List D :=
  done.filterMap fun
    | .thread _ => none
    | .dummy d => some d

variable [DecidableEq T] [DecidableEq D]

/-- The state `r` while a get copies, from the state `s` at the start, when the writers `done` have
been made ready and the bytes `stored` have been read. -/
structure Getting (g : Tag T) (n : Nat) (all : List (Writer T D)) (s : State A T D B S)
    (done : List (Writer T D)) (stored : List A) (r : State A T D B S) : Prop where
  frame : ∃ pipe putCall async free accepted received finished,
    r = { s with pipe, putCall, async, free, accepted, received, finished }
  size : r.pipe.size = s.pipe.size
  async : ∀ d, r.async d = { s.async d with bytes := (r.async d).bytes }
  puts : PutBooks none r
  gets : GetBooks (some g) r
  stream : Stream r
  wf : r.pipe.Wf
  le : stored.length ≤ n
  bytes : bytesOf g r.received = stored
  calls : ∀ t, (r.putCall t).isSome = (s.putCall t).isSome
  blocks : ∀ d, .dummy d ∈ all → bytesOf (.block (s.async d).id) r.accepted ++ (r.async d).bytes =
      bytesOf (.block (s.async d).id) s.accepted ++ (s.async d).bytes
  other : ∀ id, (∀ d, .dummy d ∈ all → (s.async d).id ≠ id) →
    bytesOf (.block id) r.accepted = bytesOf (.block id) s.accepted
  finished : r.finished = s.finished ++ finishAll s done
  free : r.free = (dummiesOf done).reverse ++ s.free

variable {g : Tag T} {n : Nat} {all done ws : List (Writer T D)} {s r : State A T D B S}
  {stored : List A} {w : Writer T D}

omit [DecidableEq D] in
theorem Getting.id_eq (h : Getting g n all s done stored r) (d : D) :
    (r.async d).id = (s.async d).id := by rw [h.async d]

theorem advance_spec (hput : PutBooks none r) (hthread : ∀ t, w = .thread t → (r.putCall t).isSome)
    (hdummy : ∀ d, w = .dummy d → (r.async d).id < r.blocks) (k : Nat) :
    ∃ putCall async, advance r w k = { r with putCall, async } ∧
      (∀ d, async d = { r.async d with bytes := (async d).bytes }) ∧
      PutBooks none { r with
        putCall, async, accepted := r.accepted ++ tagged (writerTag r w) ((descBytes r w).take k) } ∧
      (∀ t, (putCall t).isSome = (r.putCall t).isSome) ∧
      (∀ r' : State A T D B S, r'.putCall = putCall → r'.async = async →
        descBytes r' w = (descBytes r w).drop k ∧ ∀ x, x ≠ w → descBytes r' x = descBytes r x) := by
  cases w with
  | thread t =>
    obtain ⟨c, hc⟩ := Option.isSome_iff_exists.mp (hthread t rfl)
    refine ⟨_, r.async, by simp only [advance, hc]; rfl, fun _ => rfl, ?_, ?_, ?_⟩
    · have hw := hput.opened t c hc
      simp only [descBytes, hc]
      refine hput.append_call hc ?_
      rw [append_assoc, take_append_drop]
      exact hw
    · intro x
      by_cases hx : x = t
      · subst hx
        simp [hc]
      · simp [hx]
    · intro r' hp ha
      refine ⟨by simp [descBytes, hp, hc], fun x hx => ?_⟩
      cases x with
      | thread x =>
        have hne : x ≠ t := fun he => hx (by rw [he])
        simp [descBytes, hp, hne]
      | dummy d => simp [descBytes, ha]
  | dummy d =>
    refine ⟨r.putCall, _, rfl, fun x => ?_, hput.append_block (hdummy d rfl), fun _ => rfl, ?_⟩
    · by_cases hx : x = d
      · subst hx
        simp
      · simp [hx]
    · intro r' hp ha
      refine ⟨by simp [descBytes, ha], fun x hx => ?_⟩
      cases x with
      | thread x => simp [descBytes, hp]
      | dummy x =>
        have hne : x ≠ d := fun he => hx (by rw [he])
        simp [descBytes, ha, hne]

theorem Getting.advance (h : Getting g n all s done stored r) (hf : Flight all s) (hw : w ∈ all)
    {k : Nat} {pipe : KPipe A} {received : List (Tag T × A)} {stored' : List A} (hwf : pipe.Wf)
    (hsize : pipe.size = s.pipe.size) (hgets : GetBooks (some g) { r with received })
    (hstream : Stream { r with
      pipe, received, accepted := r.accepted ++ tagged (writerTag r w) ((descBytes r w).take k) })
    (hbytes : bytesOf g received = stored') (hle : stored'.length ≤ n)
    {r' : State A T D B S} (hr' : r' = { advance r w k with
      pipe, received, accepted := r.accepted ++ tagged (writerTag r w) ((descBytes r w).take k) }) :
    Getting g n all s done stored' r' ∧ descBytes r' w = (descBytes r w).drop k ∧
      ∀ x, x ≠ w → descBytes r' x = descBytes r x := by
  obtain ⟨p, q, a, f, _, _, _, hr⟩ := h.frame
  have hblocks : r.blocks = s.blocks := by rw [hr]
  obtain ⟨putCall, async, hadv, hasync, hput, hcalls, hdesc⟩ := advance_spec (w := w) h.puts
    (fun t ht => (h.calls t).trans (hf.thread t (ht ▸ hw)))
    (fun d hd => by rw [h.id_eq, hblocks]; exact hf.dummy d (hd ▸ hw)) k
  rw [hadv] at hr'
  obtain ⟨hd, hd'⟩ := hdesc r' (by rw [hr']) (by rw [hr'])
  refine ⟨?_, hd, hd'⟩
  subst hr'
  refine ⟨⟨pipe, putCall, async, r.free, _, received, r.finished, by rw [hr]⟩, hsize, ?_, hput, hgets,
    hstream, hwf, hle, hbytes, fun t => (hcalls t).trans (h.calls t), ?_, ?_, h.finished,
    h.free⟩
  · intro d
    have := hasync d
    rw [h.async d] at this
    exact this
  · intro d hda
    rw [← h.blocks d hda]
    change bytesOf _ (r.accepted ++ _) ++ descBytes _ (.dummy d) = _ ++ descBytes r (.dummy d)
    by_cases hdw : .dummy d = w
    · subst hdw
      rw [hd, writerTag, h.id_eq, bytesOf_append, bytesOf_tagged, append_assoc, take_append_drop]
    · rw [hd' _ hdw, bytesOf_append, bytesOf_tagged_of_ne, append_nil]
      cases w with
      | thread t => simp [writerTag, State.now]
      | dummy d' =>
        rw [writerTag, h.id_eq]
        intro he
        exact hdw (by rw [hf.ids d d' hda hw (by simpa using he)])
  · intro id hid
    rw [← h.other id hid, bytesOf_append, bytesOf_tagged_of_ne, append_nil]
    cases w with
    | thread t => simp [writerTag, State.now]
    | dummy d =>
      rw [writerTag, h.id_eq]
      exact fun he => hid d hw (by simpa using he.symm)

@[simp] theorem advance_pipe (s : State A T D B S) (w : Writer T D) (k : Nat) :
    (Pipe.advance s w k).pipe = s.pipe := by
  cases w with
  | thread t => cases h : s.putCall t <;> simp [Pipe.advance, h]
  | dummy d => rfl

@[simp] theorem advance_received (s : State A T D B S) (w : Writer T D) (k : Nat) :
    (Pipe.advance s w k).received = s.received := by
  cases w with
  | thread t => cases h : s.putCall t <;> simp [Pipe.advance, h]
  | dummy d => rfl

theorem advance_update (s : State A T D B S) (w : Writer T D) (k : Nat) (pipe : KPipe A)
    (accepted : List (Tag T × A)) : Pipe.advance { s with pipe, accepted } w k =
      { Pipe.advance s w k with pipe, accepted } := by
  cases w with
  | thread t => cases h : s.putCall t <;> simp [Pipe.advance, h]
  | dummy d => rfl

theorem take_length_take (xs : List A) (k : Nat) : xs.take (xs.take k).length = xs.take k := by
  rw [length_take, take_eq_take_iff]
  omega

theorem drop_length_take (xs : List A) (k : Nat) : xs.drop (xs.take k).length = xs.drop k := by
  rw [length_take]
  rcases Nat.le_total k xs.length with h | h
  · rw [Nat.min_eq_left h]
  · rw [Nat.min_eq_right h, drop_length, drop_eq_nil_of_le h]

theorem Getting.xferFromWriter (h : Getting g n all s done stored r) (hf : Flight all s)
    (hw : w ∈ all) (hc : r.pipe.bytesUsed = 0) :
    ∃ r' stored', xferFromWriter g n r stored w = (r', stored') ∧
      Getting g n all s done stored' r' ∧ r'.pipe = r.pipe ∧
      stored'.length = stored.length + min (n - stored.length) (descBytes r w).length ∧
      descBytes r' w = (descBytes r w).drop (n - stored.length) ∧
      ∀ x, x ≠ w → descBytes r' x = descBytes r x := by
  have hnil := KPipe.contents_eq_nil hc
  have hle := h.le
  generalize hxs : (descBytes r w).take (n - stored.length) = xs
  have hlen : xs.length = min (n - stored.length) (descBytes r w).length := by
    rw [← hxs, length_take]
  have htake : (descBytes r w).take xs.length = xs := by rw [← hxs, take_length_take]
  have hstream : Stream { r with
      pipe := r.pipe
      received := r.received ++ tagged g xs
      accepted := r.accepted ++ tagged (writerTag r w) ((descBytes r w).take xs.length) } := by
    have hs := h.stream
    simp only [Stream, hnil, append_nil] at hs
    simp [Stream, hnil, hs, htake]
  obtain ⟨h1, h2, h3⟩ := h.advance hf hw h.wf h.size h.gets.append_cur hstream
    (show bytesOf g (r.received ++ tagged g xs) = stored ++ xs by simp [h.bytes]) (by simp [hlen]; omega) rfl
  refine ⟨_, _, ?_, h1, rfl, by simp [hlen], ?_, h3⟩
  · simp [Pipe.xferFromWriter, pipeXfer, hxs, htake]
  · rw [h2, ← hxs, drop_length_take]

theorem Getting.refillFrom (h : Getting g n all s done stored r) (hf : Flight all s)
    (hw : w ∈ all) :
    Getting g n all s done stored (refillFrom r w) ∧
      (Pipe.refillFrom r w).pipe.bytesUsed = r.pipe.bytesUsed +
        min (r.pipe.size - r.pipe.bytesUsed) (descBytes r w).length ∧
      descBytes (Pipe.refillFrom r w) w = (descBytes r w).drop (r.pipe.size - r.pipe.bytesUsed) ∧
      ∀ x, x ≠ w → descBytes (Pipe.refillFrom r w) x = descBytes r x := by
  obtain ⟨pipe, heq, hwf, hsize, hcont⟩ :=
    putToBuffer_eq (writerTag r w) (descBytes r w) h.wf
  have hused := congrArg length hcont
  simp only [KPipe.length_contents, length_append, length_take] at hused
  generalize hk : r.pipe.size - r.pipe.bytesUsed = k at *
  generalize hm : ((descBytes r w).take k).length = m
  have htake : (descBytes r w).take m = (descBytes r w).take k := by rw [← hm, take_length_take]
  have hdef : Pipe.refillFrom r w = { Pipe.advance r w m with
      pipe
      received := r.received
      accepted := r.accepted ++ tagged (writerTag r w) ((descBytes r w).take m) } := by
    have hlen : (descBytes r w).length - ((descBytes r w).drop k).length = m := by
      rw [← hm, length_drop, length_take]
      omega
    simp only [Pipe.refillFrom, heq, hlen, advance_update, htake, advance_received]
  obtain ⟨h1, h2, h3⟩ := h.advance hf hw (k := m) hwf (hsize.trans h.size) h.gets
    (h.stream.append (hcont.trans (by rw [htake]))) h.bytes h.le hdef
  refine ⟨h1, ?_, ?_, h3⟩
  · rw [hdef]
    exact hused
  · rw [h2, ← hm, drop_length_take]

omit [DecidableEq D] in
theorem Getting.ready (h : Getting g n all s done stored r) :
    Getting g n all s (done ++ [w]) stored (pipeThreadReady r w) ∧
      (pipeThreadReady r w).pipe = r.pipe ∧
      descBytes (pipeThreadReady r w) = descBytes r := by
  cases w with
  | thread t =>
    refine ⟨{ h with finished := ?_, free := ?_ }, rfl, rfl⟩
    · simpa [finishAll, pipeThreadReady] using h.finished
    · simpa [dummiesOf, pipeThreadReady] using h.free
  | dummy d =>
    obtain ⟨p, q, a, f, _, _, _, hr⟩ := h.frame
    refine ⟨{ h with
      frame := ⟨r.pipe, r.putCall, r.async, d :: r.free, r.accepted, r.received,
        (pipeAsyncFinish r d).finished, ?_⟩, finished := ?_, free := ?_ }, rfl, ?_⟩
    · simp only [pipeThreadReady, pipeAsyncFinish, hr]
    · simp only [pipeThreadReady, pipeAsyncFinish, h.finished, finishAll, flatMap_append,
        flatMap_cons, flatMap_nil, append_nil, append_assoc, finishOps]
      rw [h.async d]
    · simp [pipeThreadReady, pipeAsyncFinish, h.free, dummiesOf]
    · funext x
      cases x <;> rfl

def left (s : State A T D B S) (ws : List (Writer T D)) : Nat :=
  (ws.map fun w => (descBytes s w).length).sum

section

omit [DecidableEq T] [DecidableEq D]

@[simp] theorem left_cons : left s (w :: ws) = (descBytes s w).length + left s ws := rfl

theorem left_congr (h : ∀ w ∈ ws, descBytes r w = descBytes s w) : left r ws = left s ws :=
  congrArg sum (map_congr_left fun w hw => congrArg length (h w hw))

end

theorem Getting.readWriters (h : Getting g n all s done stored r) (hf : Flight all s)
    (hws : ws ⊆ all) (hnd : ws.Nodup) (hc : stored.length < n → r.pipe.bytesUsed = 0) :
    ∃ r' stored' ws' popped, readWriters g n r stored ws = (r', stored', ws') ∧
      ws = popped ++ ws' ∧ Getting g n all s (done ++ popped) stored' r' ∧ r'.pipe = r.pipe ∧
      (∀ w ∈ popped, descBytes r' w = []) ∧ (stored'.length = n ∨ ws' = []) ∧
      stored'.length + left r' ws' = stored.length + left r ws ∧
      ∀ x, x ∉ ws → descBytes r' x = descBytes r x := by
  induction ws generalizing r stored done with
  | nil => exact ⟨r, stored, [], [], rfl, rfl, by simpa using h, rfl, by simp, .inr rfl, rfl,
      fun _ _ => rfl⟩
  | cons w ws ih =>
    obtain ⟨hw, hws⟩ := cons_subset.mp hws
    obtain ⟨hwn, hnd⟩ := nodup_cons.mp hnd
    have hne : ∀ x ∈ ws, x ≠ w := fun x hx => ne_of_mem_of_not_mem hx hwn
    unfold Pipe.readWriters
    by_cases hlt : stored.length < n
    · obtain ⟨r1, stored1, heq, h1, hpipe, hlen, hdesc, hsame⟩ := h.xferFromWriter hf hw (hc hlt)
      have hleft : left r1 ws = left r ws := left_congr fun x hx => hsame x (hne x hx)
      rw [if_pos hlt, heq]
      dsimp only
      split_ifs with hdone
      · refine ⟨r1, stored1, w :: ws, [], rfl, rfl, by simpa using h1, hpipe, by simp, .inl hdone, ?_,
          fun x hx => hsame x (by rintro rfl; simp at hx)⟩
        rw [left_cons, left_cons, hleft, hdesc, length_drop]
        omega
      · obtain ⟨h2, hpipe2, hdesc2⟩ := h1.ready (w := w)
        -- the writer had less than was wanted, so it has nothing left
        have hnil : descBytes r1 w = [] := by
          have := h1.le
          rw [hdesc]
          exact drop_eq_nil_of_le (by omega)
        obtain ⟨r', stored', ws', popped, heq', hsplit, h', hp', hpop, hstop, hsum, hrest⟩ :=
          ih h2 hws hnd fun hlt1 => by rw [hpipe2, hpipe]; exact hc hlt
        refine ⟨r', stored', ws', w :: popped, heq', by rw [hsplit]; rfl,
          by simpa using h', hp'.trans (hpipe2.trans hpipe), ?_, hstop, ?_, ?_⟩
        · intro x hx
          rcases mem_cons.mp hx with rfl | hx
          · rw [hrest x hwn, hdesc2, hnil]
          · exact hpop x hx
        · have hleft2 : left (pipeThreadReady r1 w) ws = left r1 ws :=
            left_congr fun x _ => congrFun hdesc2 x
          have := h1.le
          rw [hsum, hleft2, hleft, left_cons]
          omega
        · intro x hx
          rw [mem_cons, not_or] at hx
          rw [hrest x hx.2, hdesc2, hsame x hx.1]
    · have := h.le
      rw [if_neg hlt]
      exact ⟨r, stored, w :: ws, [], rfl, rfl, by simpa using h, rfl, by simp, .inl (by omega), rfl,
        fun _ _ => rfl⟩

theorem Getting.refill (h : Getting g n all s done stored r) (hf : Flight all s)
    (hws : ws ⊆ all) (hnd : ws.Nodup) (hfit : r.pipe.bytesUsed + left r ws ≤ r.pipe.size) :
    ∃ r', ws.foldl (fun s w => pipeThreadReady (Pipe.refillFrom s w) w) r = r' ∧
      Getting g n all s (done ++ ws) stored r' ∧
      r'.pipe.bytesUsed = r.pipe.bytesUsed + left r ws ∧ (∀ w ∈ ws, descBytes r' w = []) ∧
      ∀ x, x ∉ ws → descBytes r' x = descBytes r x := by
  induction ws generalizing r done with
  | nil => exact ⟨r, rfl, by simpa using h, rfl, by simp, fun _ _ => rfl⟩
  | cons w ws ih =>
    obtain ⟨hw, hws⟩ := cons_subset.mp hws
    obtain ⟨hwn, hnd⟩ := nodup_cons.mp hnd
    have hne : ∀ x ∈ ws, x ≠ w := fun x hx => ne_of_mem_of_not_mem hx hwn
    obtain ⟨h1, hused, hdesc, hsame⟩ := h.refillFrom hf hw
    obtain ⟨h2, hpipe2, hdesc2⟩ := h1.ready (w := w)
    have hleft : left (pipeThreadReady (Pipe.refillFrom r w) w) ws = left r ws :=
      left_congr fun x hx => by rw [hdesc2, hsame x (hne x hx)]
    have hsize := h1.size.trans h.size.symm
    rw [left_cons] at hfit
    obtain ⟨r', heq, h', hused', hnil, hrest⟩ := ih h2 hws hnd (by rw [hpipe2]; omega)
    refine ⟨r', heq, by simpa using h', ?_, ?_, ?_⟩
    · rw [hused', hpipe2, left_cons]
      omega
    · intro x hx
      rcases mem_cons.mp hx with rfl | hx
      · rw [hrest x hwn, hdesc2, hdesc]
        exact drop_eq_nil_of_le (by omega)
      · exact hnil x hx
    · intro x hx
      rw [mem_cons, not_or] at hx
      rw [hrest x hx.2, hdesc2, hsame x hx.1]

omit [DecidableEq D] in
theorem getting_start (n : Nat) (all : List (Writer T D)) (hp : PutBooks none s) (hg : GetBooks (some g) s) (hs : Stream s)
    (hw : s.pipe.Wf) (hnew : bytesOf g s.received = []) :
    ∃ pipe, pipeBufferGet s.pipe n = (pipe, s.pipe.contents.take n) ∧
      pipe.bytesUsed = s.pipe.bytesUsed - n ∧
      Getting g n all s [] (s.pipe.contents.take n) { s with
        pipe, received := s.received ++ tagged g (s.pipe.contents.take n) } := by
  obtain ⟨hw', hget, hc, hsize⟩ := pipeBufferGet_spec (n := n) hw
  have hused := congrArg length hc
  rw [KPipe.length_contents, length_drop, KPipe.length_contents] at hused
  refine ⟨(pipeBufferGet s.pipe n).1, by rw [← hget], hused, ⟨_, s.putCall, s.async, s.free, s.accepted,
    _, s.finished, rfl⟩, hsize, fun _ => rfl, hp, hg.append_cur, ?_, hw', length_take_le _ _, ?_,
    fun _ => rfl, fun _ _ => rfl, fun _ _ => rfl, by simp [finishAll], by simp [dummiesOf]⟩
  · have := hs
    simp only [Stream, map_append, map_snd_tagged, hc, append_assoc, take_append_drop] at this ⊢
    exact this
  · simp [hnew]

theorem Getting.supply (h : Getting g n all s done stored r) (hf : Flight all s) (hw : w ∈ all)
    (hc : stored.length < n → r.pipe.bytesUsed = 0)
    (hmore : n ≤ stored.length + (descBytes r w).length) :
    ∃ r' stored', (if stored.length < n then Pipe.xferFromWriter g n r stored w else (r, stored)) =
        (r', stored') ∧
      Getting g n all s done stored' r' ∧ r'.pipe = r.pipe ∧ stored'.length = n ∧
      (descBytes r' w).length = (descBytes r w).length - (n - stored.length) ∧
      ∀ x, x ≠ w → descBytes r' x = descBytes r x := by
  have hle := h.le
  split_ifs with hlt
  · obtain ⟨r', stored', heq, h', hpipe, hlen, hdesc, hsame⟩ := h.xferFromWriter hf hw (hc hlt)
    exact ⟨r', stored', heq, h', hpipe, by omega, by rw [hdesc, length_drop], hsame⟩
  · exact ⟨r, stored, rfl, h, rfl, by omega, by omega, fun _ _ => rfl⟩

theorem getData_spec (hp : PutBooks none s) (hg : GetBooks (some g) s) (hs : Stream s)
    (hw : s.pipe.Wf) (hnew : bytesOf g s.received = []) {xferList : List (Writer T D)}
    {writer : Option (Writer T D)} (hf : Flight all s) (hall : xferList ++ writer.toList ⊆ all)
    (hnd : (xferList ++ writer.toList).Nodup)
    (hfull : xferList ++ writer.toList ≠ [] → s.pipe.bytesUsed = s.pipe.size)
    (hsum : left s xferList ≤ n)
    (hmore : ∀ w, writer = some w → n < left s xferList + (descBytes s w).length) :
    ∃ r stored, getData s g n xferList writer = (r, stored) ∧
      Getting g n all s xferList stored r ∧ (∀ w ∈ xferList, descBytes r w = []) ∧
      (∀ w, writer = some w → r.pipe.bytesUsed = r.pipe.size ∧ stored.length = n) ∧
      (stored.length < n → r.pipe.bytesUsed = 0) ∧
      (writer = none → r.pipe.bytesUsed + stored.length = s.pipe.bytesUsed + left s xferList) := by
  obtain ⟨pipe, hget, hused0, h0⟩ := getting_start n all hp hg hs hw hnew
  have hlen0 : (s.pipe.contents.take n).length = min n s.pipe.bytesUsed := by
    rw [length_take, KPipe.length_contents]
  have hndx := (nodup_append.mp hnd).1
  obtain ⟨r1, stored1, ws, popped, heq1, hsplit, h1, hpipe1, hpop, hstop, hsum1, hsame1⟩ :=
    h0.readWriters hf (fun x hx => hall (by simp [hx])) hndx fun hlt => by
      dsimp only
      omega
  have hl0 : left { s with pipe, received := s.received ++ tagged g (s.pipe.contents.take n) }
      xferList = left s xferList := rfl
  rw [hlen0] at hsum1
  have hused1 : r1.pipe.bytesUsed = s.pipe.bytesUsed - n := by rw [hpipe1]; exact hused0
  have hsub : ws ⊆ all := fun x hx => hall (by simp [hsplit, hx])
  have hndw : ws.Nodup := (nodup_append.mp (hsplit ▸ hndx)).2.1
  have hle1 := h1.le
  have hwu := hw.used
  have hsize1 := h1.size
  have hws : ws = [] → left r1 ws = 0 := by
    rintro rfl
    rfl
  have hfit : r1.pipe.bytesUsed + left r1 ws ≤ r1.pipe.size := by
    rcases hstop with hst | hnil
    · omega
    · have := hws hnil
      omega
  have hpopped : ∀ r2 : State A T D B S, (∀ x ∈ ws, descBytes r2 x = []) →
      (∀ x ∈ xferList, x ∉ ws → descBytes r2 x = descBytes r1 x) →
      ∀ x ∈ xferList, descBytes r2 x = [] := by
    intro r2 hin hout x hx
    by_cases hxw : x ∈ ws
    · exact hin x hxw
    · rw [hout x hx hxw]
      rw [hsplit] at hx
      exact hpop x ((mem_append.mp hx).resolve_right hxw)
  cases writer with
  | none =>
    obtain ⟨r2, heq2, h2, hused2, hin, hout⟩ := h1.refill hf hsub hndw hfit
    have hdone : [] ++ popped ++ ws = xferList := by rw [hsplit]; rfl
    refine ⟨r2, stored1, ?_, hdone ▸ h2, hpopped r2 hin fun x _ => hout x, by simp, fun hlt => ?_,
      fun _ => by omega⟩
    · simp only [getData, hget, heq1, heq2, Option.toList_none, foldl_nil]
    · have := hws (hstop.resolve_left hlt.ne)
      omega
  | some w =>
    have hwx : w ∉ xferList := fun hm => (nodup_append.mp hnd).2.2 w hm w (by simp) rfl
    have hww : w ∉ ws := fun hm => hwx (by simp [hsplit, hm])
    have hwa : w ∈ all := hall (by simp)
    have hfu := hfull (by simp)
    have hmw := hmore w rfl
    have hdw : descBytes r1 w = descBytes s w := hsame1 w hwx
    have hempty : stored1.length < n → left r1 ws = 0 := fun hlt => hws (hstop.resolve_left hlt.ne)
    obtain ⟨r2, stored2, heq2, h2, hpipe2, hlen2, hdw2, hsame2⟩ :=
      h1.supply hf hwa (fun hlt => by have := hempty hlt; omega) (by rw [hdw]; omega)
    have hleft2 : left r2 ws = left r1 ws :=
      left_congr fun x hx => hsame2 x (ne_of_mem_of_not_mem hx hww)
    obtain ⟨r3, heq3, h3, hused3, hin, hout⟩ :=
      h2.refill hf hsub hndw (by rw [hpipe2, hleft2]; exact hfit)
    obtain ⟨h4, hused4, hdw4, hsame4⟩ := h3.refillFrom hf hwa
    have hdone : [] ++ popped ++ ws = xferList := by rw [hsplit]; rfl
    have hsize3 := h3.size
    refine ⟨Pipe.refillFrom r3 w, stored2, ?_, hdone ▸ h4, ?_, fun _ _ => ⟨?_, hlen2⟩, fun hlt => ?_,
      fun hf => by cases hf⟩
    · simp only [getData, hget, heq1, heq2, heq3, Option.toList_some, foldl_cons, foldl_nil]
    · refine hpopped _ (fun x hx => ?_) fun x hx hxw => ?_
      · rw [hsame4 x (ne_of_mem_of_not_mem hx hww), hin x hx]
      · have hne := ne_of_mem_of_not_mem hx hwx
        rw [hsame4 x hne, hout x hxw, hsame2 x hne]
    · rw [h4.size, hused4, hout w hww, hdw2, hdw, hused3, hpipe2, hleft2, hsize3]
      omega
    · exact absurd hlen2 hlt.ne

end Zephyr.Pipe
