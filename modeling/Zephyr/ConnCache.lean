import Zephyr.Run

/-! The handlers of UDP and TCP connections, `connection.c`, with and without the cache of
connections: whether both builds call the same handler for every packet, of the highest rank, and
whether a registration that fails leaves anything behind. -/

namespace Zephyr.Conn

open Function List

inductive Proto where
  | udp
  | tcp
deriving DecidableEq

inductive Addr where
  | unspec
  | inet (a : BitVec 32)
  | inet6 (w0 w1 w2 w3 : BitVec 32)
deriving DecidableEq

structure SockAddr where
  addr : Addr
  port : BitVec 16
deriving DecidableEq

structure NetConn (H : Type) where
  remoteAddr : SockAddr
  localAddr : SockAddr
  remoteSet : Bool
  localSet : Bool
  inUse : Bool
  proto : Option Proto
  rank : Nat
  cb : Option H

def NetConn.zero {H : Type} : NetConn H :=
  ⟨⟨.unspec, 0⟩, ⟨.unspec, 0⟩, false, false, false, none, 0, none⟩

structure Key where
  proto : Proto
  src : Addr
  dst : Addr
  srcPort : BitVec 16
  dstPort : BitVec 16
deriving DecidableEq

def portsToHash (remotePort localPort : BitVec 16) : BitVec 32 :=
  let bits (p : BitVec 16) : BitVec 16 :=
    (p &&& 0x1#16) ||| ((p &&& 0x10#16) >>> 3) ||| ((p &&& 0x100#16) >>> 6) |||
      ((p &&& 0x8000#16) >>> 12)
  (bits remotePort ||| (bits localPort <<< 4)).setWidth 32

def takeBit (val : BitVec 32) (bit max used : Nat) : BitVec 32 :=
  ((val &&& (1#32 <<< bit)) >>> bit) <<< (max - used)

def addrToHash : Addr → BitVec 32
  | .unspec => 0
  | .inet a =>
    takeBit a 31 11 1 ||| takeBit a 27 11 2 ||| takeBit a 21 11 3 ||| takeBit a 17 11 4 |||
      takeBit a 14 11 5 ||| takeBit a 11 11 6 ||| takeBit a 8 11 7 ||| takeBit a 5 11 8 |||
      takeBit a 3 11 9 ||| takeBit a 2 11 10 ||| takeBit a 0 11 11
  | .inet6 w0 w1 w2 w3 =>
    takeBit w0 31 11 1 ||| takeBit w0 15 11 2 ||| takeBit w0 7 11 3 ||| takeBit w1 31 11 4 |||
      takeBit w1 15 11 5 ||| takeBit w2 31 11 6 ||| takeBit w2 15 11 7 ||| takeBit w3 31 11 8 |||
      takeBit w3 15 11 9 ||| takeBit w3 7 11 10 ||| takeBit w3 0 11 11

def Key.hash (k : Key) : BitVec 32 :=
  let family : BitVec 32 := match k.src with
    | .inet6 .. => 1#32 <<< 30
    | _ => 0
  portsToHash k.srcPort k.dstPort ||| (if k.proto = .udp then 1#32 <<< 31 else 0) ||| family |||
    (addrToHash k.src <<< 8) ||| (addrToHash k.dst <<< 19)

def checkAddr (pktAddr : Addr) : Addr → Bool
  | .unspec => false
  | .inet a => match pktAddr with
    | .inet b => a = 0 ∨ a = b
    | _ => false
  | .inet6 w0 w1 w2 w3 => match pktAddr with
    | .inet6 .. => (w0 = 0 ∧ w1 = 0 ∧ w2 = 0 ∧ w3 = 0) ∨ pktAddr = .inet6 w0 w1 w2 w3
    | _ => false

variable {n : Nat} {H : Type}

def NetConn.Matches (c : NetConn H) (k : Key) : Bool :=
  c.inUse ∧ c.proto = some k.proto ∧ (c.remoteAddr.port = 0 ∨ c.remoteAddr.port = k.srcPort) ∧
    (c.localAddr.port = 0 ∨ c.localAddr.port = k.dstPort) ∧
    (c.remoteSet → checkAddr k.src c.remoteAddr.addr) ∧
    (c.localSet → checkAddr k.dst c.localAddr.addr)

section

variable (conns : Fin n → NetConn H)

def better (k : Key) (best : Option (Fin n)) (i : Fin n) : Option (Fin n) :=
  if (conns i).Matches k then
    match best with
    | none => some i
    | some b =>
      if (conns b).remoteAddr.port ≠ 0 then best
      else if (conns b).rank < (conns i).rank then some i
      else best
  else best

def findBest (k : Key) : Option (Fin n) :=
  (finRange n).foldl (better conns k) none

structure Registration (H : Type) where
  proto : Proto
  remoteAddr : Option SockAddr
  localAddr : Option SockAddr
  /-- The ports in network byte order. -/
  remotePort : BitVec 16
  localPort : BitVec 16
  cb : H

def Addr.sameFamily : Addr → Addr → Bool
  | .unspec, .unspec => true
  | .inet _, .inet _ => true
  | .inet6 .., .inet6 .. => true
  | _, _ => false

def Addr.isUnspecified : Addr → Bool
  | .unspec => true
  | .inet a => a = 0
  | .inet6 w0 w1 w2 w3 => w0 = 0 ∧ w1 = 0 ∧ w2 = 0 ∧ w3 = 0

def sameAddr (given : Option SockAddr) (isSet : Bool) (addr : SockAddr) : Bool :=
  match given with
  | some a => isSet ∧ a.addr ≠ .unspec ∧ a.addr = addr.addr
  | none => !isSet

variable (r : Registration H)

def findConnHandler : Option (Fin n) :=
  (finRange n).find? fun i =>
    let c := conns i
    c.inUse ∧ c.proto = some r.proto ∧ sameAddr r.remoteAddr c.remoteSet c.remoteAddr ∧
      sameAddr r.localAddr c.localSet c.localAddr ∧
      c.remoteAddr.port = r.remotePort ∧ c.localAddr.port = r.localPort

/-- What `net_conn_register` writes to a free entry, and whether it comes to the end. What it has
written stays there if it does not. -/
def fill (c : NetConn H) : Bool × NetConn H :=
  let bad (a : Option SockAddr) : Bool := a.any fun a => a.addr = .unspec
  if bad r.remoteAddr then (false, c)
  else
    let c := match r.remoteAddr with
      | some a => { c with remoteAddr := a, remoteSet := true }
      | none => c
    if bad r.localAddr then (false, c)
    else
      let c := match r.localAddr with
        | some a => { c with localAddr := a, localSet := true }
        | none => c
      let differ := match r.remoteAddr, r.localAddr with
        | some a, some b => !a.addr.sameFamily b.addr
        | _, _ => false
      if differ then (false, c)
      else
        let rankOf (a : Option SockAddr) (unspec spec : Nat) : Nat := match a with
          | some a => if a.addr.isUnspecified then unspec else spec
          | none => 0
        (true, { c with
          remoteAddr.port := if r.remotePort ≠ 0 then r.remotePort else c.remoteAddr.port
          localAddr.port := if r.localPort ≠ 0 then r.localPort else c.localAddr.port
          inUse := true
          cb := some r.cb
          rank := rankOf r.remoteAddr 8 32 + rankOf r.localAddr 4 16 +
            (if r.remotePort ≠ 0 then 2 else 0) + (if r.localPort ≠ 0 then 1 else 0)
          proto := some r.proto })

/-- An entry of the cache; `key` records what packet it was made for. -/
structure Slot (n : Nat) where
  value : BitVec 32
  idx : Option (Fin n)
  key : Option Key

structure NegSlot where
  value : BitVec 32
  key : Option Key

structure State (n : Nat) (H : Type) where
  conns : Fin n → NetConn H
  cache : Fin n → Slot n
  neg : Fin n → NegSlot

def checkHash (k : Key) (s : State n H) : State n H × Option (Fin n) :=
  match (finRange n).find? fun i => (s.cache i).value = k.hash with
  | some i => (s, some i)
  | none =>
    match (finRange n).find? fun i => (s.cache i).idx = none with
    | some i =>
      ({ s with cache := update s.cache i { s.cache i with value := k.hash } }, some i)
    | none => (s, none)

def cacheAddNeg (value : BitVec 32) (k : Key) (s : State n H) : State n H :=
  if value = 0 then s
  else
    match (finRange n).find? fun i => (s.neg i).value = 0 with
    | some i => { s with neg := update s.neg i ⟨value, some k⟩ }
    | none => s

def cacheCheckNeg (value : BitVec 32) (s : State n H) : Bool :=
  value ≠ 0 ∧ (finRange n).any fun i => (s.neg i).value = value

def cacheClear (s : State n H) : State n H :=
  { s with
    cache := fun i => { s.cache i with idx := none }
    neg := fun i => { s.neg i with value := 0 } }

def cacheRemove (i : Fin n) (s : State n H) : State n H :=
  match (finRange n).find? fun k => (s.cache k).idx = some i with
  | some k => { s with cache := update s.cache k { s.cache k with idx := none } }
  | none => s

def netConnRegister (s : State n H) : State n H :=
  if (findConnHandler s.conns r).isSome then s
  else
    match (finRange n).find? fun i => !(s.conns i).inUse with
    | none => s
    | some i =>
      let (done, c) := fill r (s.conns i)
      let s := { s with conns := update s.conns i c }
      if done then cacheClear s else s

def netConnUnregister (i : Fin n) (s : State n H) : State n H :=
  if (s.conns i).inUse then
    let s := cacheRemove i s
    { s with conns := update s.conns i .zero }
  else s

inductive Verdict where
  | ok
  | cont
  | drop
deriving DecidableEq

structure Packet where
  key : Key
  /-- The bytes behind the IP header. -/
  len : Nat
  chksumOk : Bool
  /-- What the handler that is called returns. -/
  verdict : Verdict

variable (checks : Proto → Bool) (p : Packet)

def Packet.headerFits : Bool :=
  match p.key.proto with
  | .udp => 8 ≤ p.len
  | .tcp => 20 ≤ p.len

/-- The part of `net_conn_input` behind `cache_check`: the handlers called, and the state. -/
def search (pos : Option (Fin n)) (cacheValue : BitVec 32)
    (s : State n H) : List (Fin n) × State n H :=
  if ¬ p.headerFits then ([], s)
  else
    match findBest s.conns p.key with
    | some j =>
      if checks p.key.proto ∧ ¬ p.chksumOk then ([], s)
      else
        match pos with
        | some i =>
          let slot := { s.cache i with idx := some j, key := some p.key }
          ([j], { s with cache := update s.cache i slot })
        | none => ([j], s)
    | none => ([], cacheAddNeg cacheValue p.key s)

variable (s : State n H)

def netConnInput : List (Fin n) × State n H :=
  if p.len < 8 then search checks p none 0 s
  else
    match checkHash p.key s with
    | (s, some i) =>
      match (s.cache i).idx with
      | some j =>
        if p.verdict = .cont then
          let (calls, s) := search checks p (some i) 0 s
          (j :: calls, s)
        else ([j], s)
      | none => search checks p (some i) 0 s
    | (s, none) =>
      if cacheCheckNeg p.key.hash s then ([], s) else search checks p none p.key.hash s

def netConnInputUncached : List (Fin n) :=
  (search checks p none 0 s).1

inductive Act (n : Nat) (H : Type) where
  | register (r : Registration H)
  | unregister (i : Fin n)
  | input (p : Packet)

def step : Act n H → Option (State n H)
  | .register r => some (netConnRegister r s)
  | .unregister i => some (netConnUnregister i s)
  | .input p => some (netConnInput checks p s).2

def init : State n H where
  conns _ := .zero
  cache _ := ⟨0, none, none⟩
  neg _ := ⟨0, none⟩

/-- What the cache does not see: an entry is used for a packet that it was not made for, or that
the search would not have given to a handler; a handler is removed that has more than one entry, or
without which another handler is the best match of an entry. -/
def Plain : Act n H → Prop
  | .register _ => True
  | .unregister i =>
    (∀ k k', (s.cache k).idx = some i → (s.cache k').idx = some i → k = k') ∧
    ∀ k j key, (s.cache k).idx = some j → j ≠ i → (s.cache k).key = some key →
      findBest (update s.conns i .zero) key = some j
  | .input p =>
    (∀ k, (s.cache k).value = p.key.hash → (s.cache k).idx ≠ none →
      (s.cache k).key = some p.key ∧ p.headerFits ∧ (checks p.key.proto → p.chksumOk) ∧
        p.verdict ≠ .cont) ∧
    ∀ k, (s.neg k).value = p.key.hash → (s.neg k).value ≠ 0 → (s.neg k).key = some p.key

end

variable {conns conns' : Fin n → NetConn H} {key : Key} {s : State n H} {checks : Proto → Bool}
  {p : Packet}

theorem foldl_better_eq_none {best : Option (Fin n)} (l : List (Fin n)) :
    l.foldl (better conns key) best = none ↔
      best = none ∧ ∀ i ∈ l, (conns i).Matches key = false := by
  induction l generalizing best with
  | nil => simp
  | cons i l ih =>
    rw [foldl_cons, ih, forall_mem_cons, ← and_assoc]
    refine and_congr_left fun _ => ?_
    unfold better
    grind

theorem findBest_eq_none : findBest conns key = none ↔ ∀ i, (conns i).Matches key = false := by
  simp [findBest, foldl_better_eq_none]

/-- The search depends on the handlers that match only. -/
theorem findBest_congr (h : ∀ i, conns' i = conns i ∨
    (conns' i).Matches key = false ∧ (conns i).Matches key = false) :
    findBest conns' key = findBest conns key := by
  have hfold : ∀ (l : List (Fin n)) (best : Option (Fin n)),
      (∀ b, best = some b → conns' b = conns b) →
      l.foldl (better conns' key) best = l.foldl (better conns key) best := by
    intro l
    induction l with
    | nil => exact fun _ _ => rfl
    | cons i l ih =>
      intro best hbest
      have hsame : better conns' key best i = better conns key best i := by
        unfold better
        grind
      rw [foldl_cons, hsame]
      apply ih
      intro b hb
      unfold better at hb
      grind
  exact hfold _ _ nofun

structure Good (s : State n H) : Prop where
  hit : ∀ k j, (s.cache k).idx = some j →
    ∃ key, (s.cache k).key = some key ∧ findBest s.conns key = some j
  miss : ∀ k, (s.neg k).value ≠ 0 → ∃ key, (s.neg k).key = some key ∧ findBest s.conns key = none

theorem good_init : Good (init : State n H) := ⟨nofun, fun _ h => absurd rfl h⟩

theorem Good.register (h : Good s) (r : Registration H) : Good (netConnRegister r s) := by
  unfold netConnRegister
  split
  · exact h
  split
  · exact h
  next i hi =>
    have hfree : (s.conns i).inUse = false := by simpa using find?_some hi
    generalize hfill : fill r (s.conns i) = filled
    obtain ⟨done, c⟩ := filled
    cases done with
    | true => exact ⟨nofun, fun _ hne => absurd rfl hne⟩
    | false =>
      -- what was written to the entry does not count, since it is still free
      have hc : c.inUse = false := by
        unfold fill at hfill
        grind
      have hsame : ∀ key, findBest (update s.conns i c) key = findBest s.conns key := by
        intro key
        apply findBest_congr
        intro j
        by_cases hj : j = i
        · subst hj
          simp [NetConn.Matches, hc, hfree]
        · exact .inl (update_of_ne hj _ _)
      change Good { s with conns := update s.conns i c }
      constructor
      · simp only [hsame]
        exact h.hit
      · simp only [hsame]
        exact h.miss

theorem cacheRemove_idx {i k j : Fin n} (hone : ∀ k k', (s.cache k).idx = some i →
    (s.cache k').idx = some i → k = k') (h : ((cacheRemove i s).cache k).idx = some j) :
    j ≠ i ∧ (cacheRemove i s).cache k = s.cache k := by
  unfold cacheRemove at h ⊢
  split at h
  · next k' hk' =>
    grind [update_apply]
  · next hnone =>
    grind

theorem cacheRemove_rest (i : Fin n) (s : State n H) :
    (cacheRemove i s).conns = s.conns ∧ (cacheRemove i s).neg = s.neg := by
  unfold cacheRemove
  split <;> exact ⟨rfl, rfl⟩

theorem Good.unregister (h : Good s) {i : Fin n} (hok : Plain checks s (.unregister i)) :
    Good (netConnUnregister i s) := by
  obtain ⟨hone, hbest⟩ := hok
  obtain ⟨hconns, hneg⟩ := cacheRemove_rest i s
  unfold netConnUnregister
  split
  · constructor
    · intro k j hk
      obtain ⟨hji, hsame⟩ := cacheRemove_idx hone hk
      simp only [hsame, hconns] at hk ⊢
      obtain ⟨key, hkey, -⟩ := h.hit k j hk
      exact ⟨key, hkey, hbest k j key hk hji hkey⟩
    · simp only [hneg, hconns]
      intro k hk
      obtain ⟨key, hkey, hnone⟩ := h.miss k hk
      refine ⟨key, hkey, findBest_eq_none.mpr fun j => ?_⟩
      have hj := findBest_eq_none.mp hnone j
      by_cases hji : j = i
      · simp [hji, NetConn.Matches, NetConn.zero]
      · rwa [update_of_ne hji]
  · exact h

theorem Good.search (h : Good s) (p : Packet) (pos : Option (Fin n)) (value : BitVec 32) :
    Good (search checks p pos value s).2 := by
  unfold Conn.search
  split
  · exact h
  cases hbest : findBest s.conns p.key with
  | some j =>
    dsimp only
    split
    · exact h
    cases pos with
    | none => exact h
    | some i =>
      refine ⟨fun k j' hk => ?_, h.miss⟩
      have := h.hit k
      grind [update_apply]
  | none =>
    dsimp only
    unfold cacheAddNeg
    split
    · exact h
    split
    · refine ⟨h.hit, fun k hk => ?_⟩
      have := h.miss k
      grind [update_apply]
    · exact h

theorem search_calls (checks : Proto → Bool) (p : Packet) (pos : Option (Fin n))
    (value : BitVec 32) {t : State n H} (ht : t.conns = s.conns) :
    (search checks p pos value t).1 = netConnInputUncached checks p s := by
  unfold netConnInputUncached search
  grind

theorem checkHash_spec (h : Good s) (key : Key) :
    Good (checkHash key s).1 ∧ (checkHash key s).1.conns = s.conns ∧
      (checkHash key s).1.neg = s.neg ∧
      ∀ i, (checkHash key s).2 = some i → ((checkHash key s).1.cache i).idx ≠ none →
        (checkHash key s).1.cache i = s.cache i ∧ (s.cache i).value = key.hash := by
  unfold checkHash
  split
  · next i hi =>
    exact ⟨h, rfl, rfl, by grind⟩
  split
  · next i hi =>
    refine ⟨⟨fun k j hk => ?_, h.miss⟩, rfl, rfl, by grind [update_apply]⟩
    have := h.hit k j
    grind [update_apply]
  · exact ⟨h, rfl, rfl, nofun⟩

theorem uncached_eq {j : Fin n} (hbest : findBest s.conns p.key = some j)
    (hfits : p.headerFits) (hsum : checks p.key.proto → p.chksumOk) :
    netConnInputUncached checks p s = [j] := by
  unfold netConnInputUncached search
  grind

/-- One packet is given to the same handler, and leaves the cache right. -/
theorem Good.input (h : Good s) (hok : Plain checks s (.input p)) :
    (netConnInput checks p s).1 = netConnInputUncached checks p s ∧
      Good (netConnInput checks p s).2 := by
  obtain ⟨hhit, hmiss⟩ := hok
  unfold netConnInput
  split
  · exact ⟨search_calls checks p none 0 rfl, h.search p none 0⟩
  obtain ⟨hgood, hconns, hneg, hslot⟩ := checkHash_spec h p.key
  generalize hch : checkHash p.key s = found at hgood hconns hneg hslot
  obtain ⟨t, _ | i⟩ := found
  · dsimp only at hgood hconns hneg ⊢
    split
    · next hin =>
      -- a packet that is dropped by the negative entry that was made for it
      obtain ⟨hne, k, -, hk⟩ : p.key.hash ≠ 0 ∧ ∃ k ∈ finRange n,
          (t.neg k).value = p.key.hash := by simpa [cacheCheckNeg] using hin
      rw [hneg] at hk
      obtain ⟨key, hkey, hnone⟩ := h.miss k (by rwa [hk])
      refine ⟨?_, hgood⟩
      unfold netConnInputUncached Conn.search
      grind
    · exact ⟨search_calls checks p none _ hconns, hgood.search p none _⟩
  · dsimp only at hgood hconns hslot ⊢
    cases hidx : (t.cache i).idx with
    | none => exact ⟨search_calls checks p _ 0 hconns, hgood.search p _ 0⟩
    | some j =>
      obtain ⟨hsame, hval⟩ := hslot i rfl (by simp [hidx])
      rw [hsame] at hidx
      obtain ⟨hkey, hfits, hsum, hcont⟩ := hhit i hval (by simp [hidx])
      obtain ⟨key, hkey', hbest⟩ := h.hit i j hidx
      cases hkey'.symm.trans hkey
      simp only [if_neg hcont]
      exact ⟨(uncached_eq hbest hfits hsum).symm, hgood⟩

theorem cache_transparent (checks : Proto → Bool) {s : State n H}
    (h : GuardedRun (step checks) (Plain checks) init s) (hp : Plain checks s (.input p)) :
    (netConnInput checks p s).1 = netConnInputUncached checks p s := by
  have hgood : Good s := by
    refine h.invariant (fun s a t hs hok hst => ?_) good_init
    cases a with
    | register r => exact Option.some.inj hst ▸ hs.register r
    | unregister i => exact Option.some.inj hst ▸ hs.unregister hok
    | input p => exact Option.some.inj hst ▸ (hs.input hok).2
  exact (hgood.input hp).1

def listener : Registration Unit := ⟨.udp, none, some ⟨.inet 0, 0⟩, 0, 0x35, ()⟩

def query (port : BitVec 16) : Packet := ⟨⟨.udp, .inet 1, .inet 2, port, 0x35⟩, 20, true, .ok⟩

theorem listener_called : (netConnInput (fun _ => true) (query 7)
    (netConnInput (fun _ => true) (query 7) (netConnRegister listener (init : State 2 Unit))).2).1 =
    netConnInputUncached (fun _ => true) (query 7)
      (netConnInput (fun _ => true) (query 7) (netConnRegister listener init)).2 := by
  refine cache_transparent (fun _ => true) ?_ ?_
  · refine (Relation.ReflTransGen.single ⟨.register listener, trivial, rfl⟩).tail
      ⟨.input (query 7), ?_, rfl⟩
    unfold Plain
    decide +kernel
  · unfold Plain
    decide +kernel

def connected : Registration Unit := ⟨.udp, none, none, 7, 0x35, ()⟩

/-- Port 5 has the hash value of port 7, for which there is an entry. -/
theorem collision_called : ∃ s : State 2 Unit,
    s = (netConnInput (fun _ => true) (query 7) (netConnRegister connected init)).2 ∧
    (netConnInput (fun _ => true) (query 5) s).1 = [0] ∧
    netConnInputUncached (fun _ => true) (query 5) s = [] := by
  refine ⟨_, rfl, ?_, ?_⟩ <;> decide +kernel

def RankRight (conns : Fin n → NetConn H) (key : Key) : Prop :=
  match findBest conns key with
  | none => ∀ i, (conns i).Matches key = false
  | some b => (conns b).Matches key ∧ ∀ i, (conns i).Matches key → (conns i).rank ≤ (conns b).rank

/-- A handler with a remote port, once found, is kept: it has to be of the highest rank. -/
def PortsFirst (conns : Fin n → NetConn H) (key : Key) : Prop :=
  ∀ i j, (conns i).Matches key → (conns j).Matches key → (conns i).remoteAddr.port ≠ 0 →
    (conns j).rank ≤ (conns i).rank

theorem rankRight_of_portsFirst (h : PortsFirst conns key) : RankRight conns key := by
  have hfold : ∀ l : List (Fin n), match l.foldl (better conns key) none with
      | none => ∀ i ∈ l, (conns i).Matches key = false
      | some b => (conns b).Matches key ∧
        ∀ i ∈ l, (conns i).Matches key → (conns i).rank ≤ (conns b).rank := by
    intro l
    induction l using reverseRecOn with
    | nil => exact nofun
    | append_singleton l i ih =>
      rw [foldl_append]
      generalize l.foldl (better conns key) none = best at ih
      have hi := fun b => h b i
      cases best <;> simp only [foldl_cons, foldl_nil, better] <;> grind
  simpa [RankRight, findBest] using hfold (finRange n)

theorem foldl_better_some {b : Fin n} (hb : (conns b).remoteAddr.port ≠ 0) (l : List (Fin n)) :
    l.foldl (better conns key) (some b) = some b := by
  induction l with
  | nil => rfl
  | cons i l ih =>
    have hi : better conns key (some b) i = some b := by grind [better]
    rw [foldl_cons, hi, ih]

theorem RankRight.unique {σ : Equiv.Perm (Fin n)} (h : RankRight conns key)
    (hσ : RankRight (conns ∘ σ) key) (hne : ∀ i j, (conns i).Matches key →
      (conns j).Matches key → (conns i).rank = (conns j).rank → i = j) :
    (findBest (conns ∘ σ) key).map σ = findBest conns key := by
  unfold RankRight at h hσ
  cases hb : findBest conns key with
  | none =>
    rw [findBest_eq_none] at hb
    have hnone : findBest (conns ∘ σ) key = none := findBest_eq_none.mpr fun i => hb (σ i)
    rw [hnone]
    rfl
  | some b =>
    rw [hb] at h
    cases hb' : findBest (conns ∘ σ) key with
    | none =>
      have hnone := findBest_eq_none.mp hb' (σ.symm b)
      simp [h.1] at hnone
    | some b' =>
      rw [hb'] at hσ
      have hle := h.2 _ hσ.1
      have hge := hσ.2 (σ.symm b) (by simpa using h.1)
      rw [comp_apply, comp_apply, σ.apply_symm_apply] at hge
      exact congrArg some (hne _ _ hσ.1 h.1 (Nat.le_antisymm hle hge))

theorem selection_right_iff (conns : Fin n → NetConn H) (key : Key) :
    (∀ σ : Equiv.Perm (Fin n), RankRight (conns ∘ σ) key ∧ ((∀ i j, (conns i).Matches key →
      (conns j).Matches key → (conns i).rank = (conns j).rank → i = j) →
        (findBest (conns ∘ σ) key).map σ = findBest conns key)) ↔ PortsFirst conns key := by
  constructor
  · intro h i j hi hj hport
    cases n with
    | zero => exact i.elim0
    | succ n =>
      have hright := (h (Equiv.swap 0 i)).1
      have hbest : findBest (conns ∘ Equiv.swap 0 i) key = some 0 := by
        rw [findBest, finRange_succ, foldl_cons]
        have hfirst : better (conns ∘ Equiv.swap 0 i) key none 0 = some 0 := by simp [better, hi]
        rw [hfirst]
        exact foldl_better_some (by simpa using hport) _
      rw [RankRight, hbest] at hright
      simpa using hright.2 (Equiv.swap 0 i j) (by simpa using hj)
  · intro h σ
    have hσ : RankRight (conns ∘ σ) key := rankRight_of_portsFirst fun i j => h (σ i) (σ j)
    exact ⟨hσ, (rankRight_of_portsFirst h).unique hσ⟩

theorem connected_shadows : ∃ s : State 2 Unit,
    s = netConnRegister listener (netConnRegister connected init) ∧
    (s.conns 1).Matches (query 7).key ∧ findBest s.conns (query 7).key = some 0 ∧
    (s.conns 0).rank = 3 ∧ (s.conns 1).rank = 5 := by
  refine ⟨_, rfl, ?_⟩
  decide +kernel

def eNoEnt : Int := 2

def eInval : Int := 22

def eAlready : Int := 69

/-- What a call returns: an error, or the handle or the handlers called. -/
def result (checks : Proto → Bool) (s : State n H) : Act n H → Except Int (List (Fin n))
  | .register r =>
    if (findConnHandler s.conns r).isSome then .error (-eAlready)
    else
      match (finRange n).find? fun i => !(s.conns i).inUse with
      | none => .error (-eNoEnt)
      | some i => if (fill r (s.conns i)).1 then .ok [i] else .error (-eInval)
  | .unregister i => if (s.conns i).inUse then .ok [] else .error (-eNoEnt)
  | .input p => .ok (netConnInput checks p s).1

/-- The state behind the calls, and each call with its result. -/
def history (checks : Proto → Bool) (s : State n H) :
    List (Act n H) → State n H × List (Act n H × Except Int (List (Fin n)))
  | [] => (s, [])
  | a :: acts =>
    let (t, rest) := history checks ((step checks s a).getD s) acts
    (t, (a, result checks s a) :: rest)

def remains : Act n H × Except Int (List (Fin n)) → Bool
  | (.register _, .error _) => false
  | _ => true

/-- With a remote address of a known family comes no local one of another family. -/
def Registration.Alike (r : Registration H) : Prop :=
  ∀ a ∈ r.remoteAddr, a.addr ≠ .unspec → ∀ b ∈ r.localAddr,
    b.addr ≠ .unspec ∧ a.addr.sameFamily b.addr

theorem register_failed {r : Registration H} (hr : r.Alike) {e : Int}
    (he : result checks s (.register r) = .error e) : netConnRegister r s = s := by
  have hfill : ∀ c : NetConn H, (fill r c).1 = false → (fill r c).2 = c := by
    intro c hc
    unfold Registration.Alike at hr
    rcases hra : r.remoteAddr with _ | a <;> rcases hrb : r.localAddr with _ | b <;>
      simp only [fill, hra, hrb] at hr hc ⊢ <;> grind
  simp only [result] at he
  unfold netConnRegister
  split_ifs at he ⊢
  · rfl
  cases hi : (finRange n).find? fun i => !(s.conns i).inUse with
  | none => rfl
  | some i =>
    have hf : (fill r (s.conns i)).1 = false := by
      rw [hi] at he
      grind
    simp [hf, hfill _ hf]

theorem no_trace {acts : List (Act n H)} (h : ∀ r, .register r ∈ acts → r.Alike) :
    let (t, calls) := history checks s acts
    history checks s ((calls.filter remains).map Prod.fst) = (t, calls.filter remains) := by
  induction acts generalizing s with
  | nil => rfl
  | cons a acts ih =>
    have hrest := ih (s := (step checks s a).getD s) fun r hr => h r (.tail _ hr)
    simp only [history] at hrest ⊢
    cases hrem : remains (a, result checks s a) with
    | true => simp [hrem, history, hrest]
    | false =>
      rw [filter_cons_of_neg (by simp [hrem])]
      cases a with
      | register r =>
        cases hres : result checks s (.register r) with
        | ok => simp [remains, hres] at hrem
        | error e =>
          have hsame := register_failed (h r mem_cons_self) hres
          simp only [step, hsame, Option.getD_some] at hrest ⊢
          exact hrest
      | _ => cases hrem

theorem no_trace_twice : history (fun _ => true) (init : State 2 Unit) [.register listener] =
    ((history (fun _ => true) init [.register listener, .register listener]).1,
      [(.register listener, .ok [0])]) :=
  @no_trace _ _ init _ [.register listener, .register listener]
    (by simp [listener, Registration.Alike])

def orphan : Registration Unit := ⟨.udp, some ⟨.inet 3, 0⟩, some ⟨.unspec, 0⟩, 0, 0x35, ()⟩

/-- The remote address of the failed call is part of the handler registered next. -/
theorem trace_left : ∃ s t : State 2 Unit,
    s = (history (fun _ => true) init [.register orphan, .register listener]).1 ∧
    t = (history (fun _ => true) init [.register listener]).1 ∧
    result (fun _ => true) (init : State 2 Unit) (.register orphan) = .error (-eInval) ∧
    netConnInputUncached (fun _ => true) (query 7) s = [] ∧
    netConnInputUncached (fun _ => true) (query 7) t = [0] := by
  refine ⟨_, _, rfl, rfl, rfl, ?_⟩
  decide +kernel

end Zephyr.Conn
