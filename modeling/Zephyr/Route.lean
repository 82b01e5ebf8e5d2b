import Zephyr.Run
import Zephyr.SlotMap

/-! The IPv6 routing table of `subsys/net/ip/route.c` as a map from prefixes to next hops. An entry is
found by the longest prefix, also when it is to be replaced; the entries of next hops are never
given back. -/

namespace Zephyr.Route

abbrev In6Addr := BitVec 128

def s6Addr (addr : In6Addr) (i : Nat) : BitVec 8 := addr.extractLsb' (8 * (15 - i)) 8

def prefixMask (remain : Nat) : BitVec 8 :=
  (((0xFF#32 <<< (8 - remain)) ^^^ 0xFF#32) <<< remain).setWidth 8

def netIsIpv6Prefix (addr1 addr2 : In6Addr) (length : Nat) : Bool :=
  let bits := 128 - length
  let bytes := length / 8
  let remain := bits % 8
  if 128 < length then false
  else if ¬ ∀ i < bytes, s6Addr addr1 i = s6Addr addr2 i then false
  else if remain = 0 then true
  else s6Addr addr1 bytes &&& prefixMask remain = s6Addr addr2 bytes &&& prefixMask remain

section Table

variable {I : Type}

/-- A `struct net_nbr` of the pool of routes with its `struct net_route_entry`, which keeps what it
holds when it is not in use. The next hops are indices in their own pool. -/
structure Slot (I : Type) where
  ref : Nat
  nbrIface : I
  addr : In6Addr
  prefixLen : Nat
  iface : I
  nexthop : List Nat

structure Nexthop (I : Type) where
  ref : Nat
  nbr : Option (I × In6Addr)

structure Table (I : Type) where
  pool : List (Slot I)
  nexthops : List (Nexthop I)
  routes : List Nat

def lookupLoop [DecidableEq I] (iface : Option I) (dst : In6Addr) :
    List (Slot I) → Nat → Option Nat → Nat → Option Nat
  | [], _, found, _ => found
  | slot :: pool, i, found, longestMatch =>
    if ¬ longestMatch < 128 then found
    else if slot.ref = 0 then lookupLoop iface dst pool (i + 1) found longestMatch
    else if iface.any (slot.nbrIface ≠ ·) then
      lookupLoop iface dst pool (i + 1) found longestMatch
    else if longestMatch ≤ slot.prefixLen ∧ netIsIpv6Prefix dst slot.addr slot.prefixLen then
      lookupLoop iface dst pool (i + 1) (some i) slot.prefixLen
    else lookupLoop iface dst pool (i + 1) found longestMatch

section

variable (t : Table I) (iface : I) (addr : In6Addr) (prefixLen : Nat) (route : Nat)

def updateRouteAccess : Table I :=
  { t with routes := route :: t.routes.erase route }

def netRouteLookup [DecidableEq I] (t : Table I) (iface : Option I) (dst : In6Addr) :
    Option Nat × Table I :=
  match lookupLoop iface dst t.pool 0 none 0 with
  | none => (none, t)
  | some found => (some found, updateRouteAccess t found)

def netRouteGetNexthop : Option In6Addr :=
  t.pool[route]?.bind fun slot => slot.nexthop.head?.bind fun k =>
    t.nexthops[k]?.bind fun nexthop => nexthop.nbr.map Prod.snd

def netRouteDel : Table I :=
  let t := { t with routes := t.routes.erase route }
  match t.pool[route]? with
  | none => t
  | some slot =>
    if slot.ref = 0 then t
    else { t with pool := t.pool.set route { slot with ref := slot.ref - 1 } }

def nbrNew : Option (Nat × Table I) :=
  (t.pool.findIdx? (·.ref = 0)).bind fun i => t.pool[i]?.map fun slot =>
    (i, { t with pool := t.pool.set i { slot with ref := 1, nbrIface := iface, addr, prefixLen } })

def getNexthopRoute : Option (Nat × Table I) :=
  (t.nexthops.findIdx? (·.ref = 0)).bind fun k => t.nexthops[k]?.map fun nexthop =>
    (k, { t with nexthops := t.nexthops.set k { nexthop with ref := 1 } })

def addNexthop (i : Nat) (iface : I) (nexthop : In6Addr) : Option Nat × Table I :=
  match getNexthopRoute t with
  | none => (none, t)
  | some (k, t) =>
    (some i, {
      pool := t.pool.modify i fun slot => { slot with iface, nexthop := [k] }
      nexthops := t.nexthops.modify k fun entry => { entry with nbr := some (iface, nexthop) }
      routes := i :: t.routes })

/-- `net_route_add` from the allocation of an entry on. When there is none the oldest route goes. -/
def addNew (nexthop : In6Addr) : Option Nat × Table I :=
  match nbrNew t iface addr prefixLen with
  | some (i, t) => addNexthop t i iface nexthop
  | none =>
    match t.routes.getLast? with
    | none => (none, t)
    | some last =>
      let t := netRouteDel { t with routes := t.routes.erase last } last
      match nbrNew t iface addr prefixLen with
      | none => (none, t)
      | some (i, t) => addNexthop t i iface nexthop

def netRouteAdd [DecidableEq I] (cached : I → In6Addr → Bool) (t : Table I) (iface : I)
    (addr : In6Addr) (prefixLen : Nat) (nexthop : In6Addr) : Option Nat × Table I :=
  if addr = 0 then (none, t)
  else if ¬ cached iface nexthop then (none, t)
  else
    let (route, t) := netRouteLookup t (some iface) addr
    match route with
    | none => addNew t iface addr prefixLen nexthop
    | some route =>
      if netRouteGetNexthop t route = some nexthop then (some route, t)
      else addNew (netRouteDel t route) iface addr prefixLen nexthop

abbrev Key (I : Type) := I × Nat × In6Addr

def keyOf : Key I :=
  (iface, prefixLen, addr >>> (128 - prefixLen))

def entry (i : Nat) : Option (Key I × In6Addr) :=
  t.pool[i]?.bind fun slot =>
    if slot.ref = 0 then none
    else (netRouteGetNexthop t i).map fun nexthop =>
      (keyOf slot.nbrIface slot.addr slot.prefixLen, nexthop)

end

structure State (I : Type) where
  table : Table I
  want : Key I → Option In6Addr

inductive Act (I : Type) where
  | add (iface : I) (addr : In6Addr) (prefixLen : Nat) (nexthop : In6Addr)
  | del (route : Nat)
  | lookup (iface : Option I) (dst : In6Addr)

def init (pool : List (Slot I)) (nexthops : List (Nexthop I)) : State I where
  table := ⟨pool, nexthops, []⟩
  want := fun _ => none

variable [DecidableEq I]

def step (cached : I → In6Addr → Bool) (s : State I) : Act I → Option (State I)
  | .add iface addr prefixLen nexthop =>
    some { table := (netRouteAdd cached s.table iface addr prefixLen nexthop).2
           want := Function.update s.want (keyOf iface addr prefixLen) (some nexthop) }
  | .del route =>
    some { table := netRouteDel s.table route
           want := match entry s.table route with
             | none => s.want
             | some (key, _) => Function.update s.want key none }
  | .lookup iface dst => some { s with table := (netRouteLookup s.table iface dst).2 }

structure PlainAdd (cached : I → In6Addr → Bool) (t : Table I) (iface : I) (addr : In6Addr)
    (prefixLen : Nat) (nexthop : In6Addr) : Prop where
  fits : prefixLen ≤ 128
  known : cached iface nexthop
  room : (lookupLoop (some iface) addr t.pool 0 none 0).isSome ∨ ∃ slot ∈ t.pool, slot.ref = 0
  specified : addr ≠ 0
  free : ∃ entry ∈ t.nexthops, entry.ref = 0
  same : ∀ r ∈ lookupLoop (some iface) addr t.pool 0 none 0, ∀ slot ∈ t.pool[r]?,
    slot.prefixLen = prefixLen

def Plain (cached : I → In6Addr → Bool) (s : State I) : Act I → Prop
  | .add iface addr prefixLen nexthop => PlainAdd cached s.table iface addr prefixLen nexthop
  | .del _ | .lookup _ _ => True

end Table

open Function List Option

section Prefixes

variable {a b : In6Addr} {len : Nat}

theorem shift_eq_iff {k : Nat} :
    a >>> k = b >>> k ↔ ∀ i, k ≤ i → i < 128 → a.getLsbD i = b.getLsbD i := by
  constructor
  · intro heq i hk _
    have hbit := congrArg (fun x : In6Addr => x.getLsbD (i - k)) heq
    simpa [Nat.add_sub_cancel' hk] using hbit
  · intro h
    refine BitVec.eq_of_getLsbD_eq fun i _ => ?_
    rw [BitVec.getLsbD_ushiftRight, BitVec.getLsbD_ushiftRight]
    by_cases hi : k + i < 128
    · exact h (k + i) (Nat.le_add_right k i) hi
    · rw [BitVec.getLsbD_of_ge _ _ (Nat.not_lt.mp hi), BitVec.getLsbD_of_ge _ _ (Nat.not_lt.mp hi)]

theorem s6Addr_getLsbD {t : Nat} (ht : t < 8) (i : Nat) :
    (s6Addr a i).getLsbD t = a.getLsbD (8 * (15 - i) + t) := by
  rw [s6Addr, BitVec.getLsbD_extractLsb', decide_eq_true ht, Bool.true_and]

theorem prefixMask_getLsbD : ∀ r < 8, ∀ t < 8, (prefixMask r).getLsbD t = decide (r ≤ t) := by
  decide

theorem s6Addr_eq_iff (i : Nat) : s6Addr a i = s6Addr b i ↔
    ∀ t < 8, a.getLsbD (8 * (15 - i) + t) = b.getLsbD (8 * (15 - i) + t) := by
  constructor
  · intro heq t ht
    rw [← s6Addr_getLsbD ht, heq, s6Addr_getLsbD ht]
  · intro h
    refine BitVec.eq_of_getLsbD_eq fun t ht => ?_
    rw [s6Addr_getLsbD ht, s6Addr_getLsbD ht]
    exact h t ht

theorem masked_eq_iff {r : Nat} (hr : r < 8) (i : Nat) :
    s6Addr a i &&& prefixMask r = s6Addr b i &&& prefixMask r ↔
      ∀ t, r ≤ t → t < 8 → a.getLsbD (8 * (15 - i) + t) = b.getLsbD (8 * (15 - i) + t) := by
  constructor
  · intro heq t hrt ht
    have hbit := congrArg (fun x : BitVec 8 => x.getLsbD t) heq
    simpa [prefixMask_getLsbD r hr t ht, hrt, s6Addr_getLsbD ht] using hbit
  · intro h
    refine BitVec.eq_of_getLsbD_eq fun t ht => ?_
    rw [BitVec.getLsbD_and, BitVec.getLsbD_and, prefixMask_getLsbD r hr t ht, s6Addr_getLsbD ht,
      s6Addr_getLsbD ht]
    by_cases hrt : r ≤ t
    · rw [h t hrt ht]
    · simp [hrt]

theorem netIsIpv6Prefix_iff (h : len ≤ 128) :
    netIsIpv6Prefix a b len = true ↔ a >>> (128 - len) = b >>> (128 - len) := by
  rw [netIsIpv6Prefix, if_neg (Nat.not_lt.mpr h), shift_eq_iff]
  simp only [s6Addr_eq_iff]
  by_cases hbytes : ∀ i < len / 8, ∀ t < 8,
      a.getLsbD (8 * (15 - i) + t) = b.getLsbD (8 * (15 - i) + t)
  · rw [if_neg (not_not.mpr hbytes)]
    have hhigh (i : Nat) (hi : 128 - 8 * (len / 8) ≤ i) (hlt : i < 128) :
        a.getLsbD i = b.getLsbD i := by
      have hbit := hbytes (15 - i / 8) (by omega) (i % 8) (Nat.mod_lt i (by decide))
      rwa [show 8 * (15 - (15 - i / 8)) + i % 8 = i by omega] at hbit
    split
    · next hremain =>
      exact iff_of_true rfl fun i hi hlt => hhigh i (by omega) hlt
    · next hremain =>
      rw [decide_eq_true_eq, masked_eq_iff (Nat.mod_lt _ (by decide))]
      constructor
      · intro hlow i hi hlt
        by_cases hge : 128 - 8 * (len / 8) ≤ i
        · exact hhigh i hge hlt
        · have hbit := hlow (i - 8 * (15 - len / 8)) (by omega) (by omega)
          rwa [Nat.add_sub_cancel' (by omega)] at hbit
      · exact fun hall t hrt ht => hall _ (by omega) (by omega)
  · rw [if_pos hbytes]
    refine iff_of_false Bool.false_ne_true fun hall => hbytes fun i hi t ht => ?_
    exact hall _ (by omega) (by omega)

end Prefixes

section Lookup

variable {I : Type} [DecidableEq I] {iface : Option I} {dst : In6Addr} {slot : Slot I}
  {pool : List (Slot I)} {i longest : Nat} {found : Option Nat}

def Hit (iface : Option I) (dst : In6Addr) (slot : Slot I) : Prop :=
  slot.ref ≠ 0 ∧ (∀ f ∈ iface, slot.nbrIface = f) ∧
    netIsIpv6Prefix dst slot.addr slot.prefixLen = true

theorem lookupLoop_skip (h : ¬ (Hit iface dst slot ∧ longest ≤ slot.prefixLen))
    (hlt : longest < 128) : lookupLoop iface dst (slot :: pool) i found longest =
      lookupLoop iface dst pool (i + 1) found longest := by
  rw [lookupLoop, if_neg (not_not.mpr hlt)]
  split
  · rfl
  · next href =>
    split
    · rfl
    · next hiface =>
      refine if_neg fun hmatch => h ⟨⟨href, fun f hf => ?_, hmatch.2⟩, hmatch.1⟩
      obtain rfl := mem_def.mp hf
      simpa using hiface

theorem lookupLoop_take (h : Hit iface dst slot) (hle : longest ≤ slot.prefixLen)
    (hlt : longest < 128) : lookupLoop iface dst (slot :: pool) i found longest =
      lookupLoop iface dst pool (i + 1) (some i) slot.prefixLen := by
  have hiface : ¬ iface.any (slot.nbrIface ≠ ·) := by
    cases iface with
    | none => simp
    | some f => simpa using h.2.1 f rfl
  rw [lookupLoop, if_neg (not_not.mpr hlt), if_neg h.1, if_neg hiface, if_pos ⟨hle, h.2.2⟩]

theorem lookupLoop_spec (i longest : Nat) (found : Option Nat) (hfound : found = none → longest = 0)
    (hlen : ∀ slot ∈ pool, slot.ref ≠ 0 → slot.prefixLen ≤ 128) :
    (lookupLoop iface dst pool i found longest = found ∧
        ∀ slot ∈ pool, Hit iface dst slot → found ≠ none ∧ slot.prefixLen ≤ longest) ∨
      ∃ j slot, pool[j]? = some slot ∧ lookupLoop iface dst pool i found longest = some (i + j) ∧
        Hit iface dst slot ∧ longest ≤ slot.prefixLen ∧
        ∀ slot' ∈ pool, Hit iface dst slot' → slot'.prefixLen ≤ slot.prefixLen := by
  induction pool generalizing i found longest with
  | nil => exact .inl ⟨rfl, nofun⟩
  | cons slot pool ih =>
    obtain ⟨hslot, hlen'⟩ := forall_mem_cons.mp hlen
    by_cases hlt : longest < 128
    · by_cases hhit : Hit iface dst slot ∧ longest ≤ slot.prefixLen
      · obtain ⟨hhit, hle⟩ := hhit
        rw [lookupLoop_take hhit hle hlt]
        rcases ih (i + 1) slot.prefixLen (some i) nofun hlen' with
          ⟨heq, hbest⟩ | ⟨j, slot', hj, heq, hhit', hle', hbest⟩
        · refine .inr ⟨0, slot, rfl, heq, hhit, hle,
            forall_mem_cons.mpr ⟨fun _ => Nat.le_refl _, ?_⟩⟩
          exact fun other hmem hother => (hbest other hmem hother).2
        · refine .inr ⟨j + 1, slot', hj, by rw [heq, Nat.add_assoc, Nat.add_comm 1], hhit',
            Nat.le_trans hle hle', forall_mem_cons.mpr ⟨fun _ => hle', hbest⟩⟩
      · rw [lookupLoop_skip hhit hlt]
        rcases ih (i + 1) longest found hfound hlen' with
          ⟨heq, hbest⟩ | ⟨j, slot', hj, heq, hhit', hle', hbest⟩
        · refine .inl ⟨heq, forall_mem_cons.mpr ⟨fun hh => ?_, hbest⟩⟩
          have hless : ¬ longest ≤ slot.prefixLen := fun hle => hhit ⟨hh, hle⟩
          exact ⟨fun hnone => hless (hfound hnone ▸ Nat.zero_le _), Nat.le_of_not_le hless⟩
        · refine .inr ⟨j + 1, slot', hj, by rw [heq, Nat.add_assoc, Nat.add_comm 1], hhit', hle',
            forall_mem_cons.mpr ⟨fun hh => ?_, hbest⟩⟩
          have hless : ¬ longest ≤ slot.prefixLen := fun hle => hhit ⟨hh, hle⟩
          omega
    · refine .inl ⟨by rw [lookupLoop, if_pos hlt], fun other hmem hother => ?_⟩
      have hle := hlen other hmem hother.1
      exact ⟨fun hnone => hlt (hfound hnone ▸ by decide), by omega⟩

end Lookup

section Entries

variable {I : Type} {t : Table I} {slot : Slot I} {i r : Nat}

def entryOf (nexthops : List (Nexthop I)) (slot : Slot I) : Option (Key I × In6Addr) :=
  if slot.ref = 0 then none
  else (slot.nexthop.head?.bind fun k => nexthops[k]?.bind fun nexthop =>
    nexthop.nbr.map Prod.snd).map fun nexthop =>
      (keyOf slot.nbrIface slot.addr slot.prefixLen, nexthop)

theorem entry_eq (t : Table I) (i : Nat) : entry t i = t.pool[i]?.bind (entryOf t.nexthops) := by
  rw [entry]
  cases hslot : t.pool[i]? with
  | none => rfl
  | some slot => rw [netRouteGetNexthop, hslot]; rfl

structure Fine (t : Table I) : Prop where
  ref : ∀ slot ∈ t.pool, slot.ref ≤ 1
  length : ∀ slot ∈ t.pool, slot.ref ≠ 0 → slot.prefixLen ≤ 128
  nexthop : ∀ slot ∈ t.pool, slot.ref ≠ 0 → ∃ k nexthop p, slot.nexthop = [k] ∧
    t.nexthops[k]? = some nexthop ∧ nexthop.ref ≠ 0 ∧ nexthop.nbr = some p

theorem Fine.entryOf_some (h : Fine t) (hslot : slot ∈ t.pool) (href : slot.ref ≠ 0) :
    ∃ n, entryOf t.nexthops slot = some (keyOf slot.nbrIface slot.addr slot.prefixLen, n) := by
  obtain ⟨k, _, p, hk, hnexthop, -, hp⟩ := h.nexthop slot hslot href
  exact ⟨p.2, by simp [entryOf, href, hk, hnexthop, hp]⟩

variable {nexthops : List (Nexthop I)}

theorem entryOf_eq_some {key : Key I} {n : In6Addr} (h : entryOf nexthops slot = some (key, n)) :
    slot.ref ≠ 0 ∧ key = keyOf slot.nbrIface slot.addr slot.prefixLen := by
  rw [entryOf] at h
  split at h
  · cases h
  · next href =>
    obtain ⟨_, -, heq⟩ := map_eq_some_iff.mp h
    exact ⟨href, (Prod.mk.inj heq).1.symm⟩

theorem entryOf_free (h : slot.ref = 0) : entryOf nexthops slot = none := if_pos h

theorem Fine.del (h : Fine t) (r : Nat) : Fine (netRouteDel t r) := by
  rw [netRouteDel]
  cases hslot : t.pool[r]? with
  | none => exact { h with }
  | some slot =>
    dsimp only
    split
    · exact { h with }
    · have hle := h.ref slot (mem_of_getElem? hslot)
      have hcases (slot' : Slot I) (hmem : slot' ∈ t.pool.set r { slot with ref := slot.ref - 1 }) :
          slot' ∈ t.pool ∨ slot'.ref = 0 := by
        rcases mem_or_eq_of_mem_set hmem with hmem | rfl
        · exact .inl hmem
        · exact .inr (by dsimp only; omega)
      refine ⟨fun slot' hmem => ?_, fun slot' hmem href => ?_, fun slot' hmem href => ?_⟩
      · rcases hcases slot' hmem with hmem | hzero
        · exact h.ref slot' hmem
        · omega
      · exact h.length slot' ((hcases slot' hmem).resolve_right href) href
      · exact h.nexthop slot' ((hcases slot' hmem).resolve_right href) href

theorem Fine.room_del (h : Fine t) (hslot : t.pool[r]? = some slot) (href : slot.ref ≠ 0) :
    (∃ slot' ∈ (netRouteDel t r).pool, slot'.ref = 0) ∧
      (netRouteDel t r).nexthops = t.nexthops := by
  have hle := h.ref slot (mem_of_getElem? hslot)
  rw [netRouteDel]
  rw [hslot]
  dsimp only
  rw [if_neg href]
  refine ⟨⟨_, mem_set (List.getElem?_eq_some_iff.mp hslot).1 _, ?_⟩, rfl⟩
  dsimp only
  omega

theorem Fine.entry_del (h : Fine t) (r : Nat) :
    entry (netRouteDel t r) = update (entry t) r none := by
  funext i
  rw [netRouteDel]
  cases hslot : t.pool[r]? with
  | none =>
    have hnone : entry t r = none := by rw [entry_eq, hslot]; rfl
    rw [← hnone, update_eq_self]
    rfl
  | some slot =>
    dsimp only
    split
    · next hzero =>
      have hnone : entry t r = none := by rw [entry_eq, hslot]; exact entryOf_free hzero
      rw [← hnone, update_eq_self]
      rfl
    · have hle := h.ref slot (mem_of_getElem? hslot)
      rw [entry_eq]
      by_cases hi : i = r
      · subst hi
        rw [update_self, getElem?_set_self (List.getElem?_eq_some_iff.mp hslot).1]
        exact entryOf_free (by dsimp only; omega)
      · rw [update_of_ne hi, getElem?_set_ne (fun heq => hi heq.symm), entry_eq]

theorem set_modify {A : Type} (l : List A) (i : Nat) (a : A) (f : A → A) :
    (l.set i a).modify i f = l.set i (f a) := by
  refine ext_getElem? fun j => ?_
  by_cases hj : i = j
  · subst hj
    by_cases hlt : i < l.length <;> simp [hlt]
  · simp [hj]

theorem addNew_eq (iface : I) (addr : In6Addr) (len : Nat) (nexthop : In6Addr)
    (hroom : ∃ slot ∈ t.pool, slot.ref = 0) (hfree : ∃ entry ∈ t.nexthops, entry.ref = 0) :
    ∃ i slot k entry, t.pool[i]? = some slot ∧ slot.ref = 0 ∧
      t.nexthops[k]? = some entry ∧ entry.ref = 0 ∧
      addNew t iface addr len nexthop = (some i, {
        pool := t.pool.set i ⟨1, iface, addr, len, iface, [k]⟩
        nexthops := t.nexthops.set k ⟨1, some (iface, nexthop)⟩
        routes := i :: t.routes }) := by
  obtain ⟨i, hi⟩ : ∃ i, t.pool.findIdx? (·.ref = 0) = some i :=
    isSome_iff_exists.mp (by simpa using hroom)
  obtain ⟨k, hk⟩ : ∃ k, t.nexthops.findIdx? (·.ref = 0) = some k :=
    isSome_iff_exists.mp (by simpa using hfree)
  obtain ⟨hilt, hiref, -⟩ := findIdx?_eq_some_iff_getElem.mp hi
  obtain ⟨hklt, hkref, -⟩ := findIdx?_eq_some_iff_getElem.mp hk
  refine ⟨i, t.pool[i], k, t.nexthops[k], getElem?_eq_getElem hilt, by simpa using hiref,
    getElem?_eq_getElem hklt, by simpa using hkref, ?_⟩
  simp only [addNew, nbrNew, hi, bind_some, getElem?_eq_getElem hilt, map_some,
    addNexthop, getNexthopRoute, hk, getElem?_eq_getElem hklt, set_modify]

theorem Fine.addNew (h : Fine t) {iface : I} {addr nexthop : In6Addr} {len : Nat} (hlen : len ≤ 128)
    (hroom : ∃ slot ∈ t.pool, slot.ref = 0) (hfree : ∃ entry ∈ t.nexthops, entry.ref = 0) :
    Fine (addNew t iface addr len nexthop).2 ∧ ∃ i, entry t i = none ∧
      entry (addNew t iface addr len nexthop).2 =
        update (entry t) i (some (keyOf iface addr len, nexthop)) := by
  obtain ⟨i, _, k, hop, hslot, href, hhop, hfree, heq⟩ :=
    addNew_eq iface addr len nexthop hroom hfree
  rw [heq]
  have hk : k < t.nexthops.length := (List.getElem?_eq_some_iff.mp hhop).1
  have hi : i < t.pool.length := (List.getElem?_eq_some_iff.mp hslot).1
  -- the next hops of the routes in use stay as they are
  have hkeep {slot' : Slot I} (hmem : slot' ∈ t.pool) (href' : slot'.ref ≠ 0) :
      ∃ k' nexthop' p, slot'.nexthop = [k'] ∧ nexthop'.ref ≠ 0 ∧ nexthop'.nbr = some p ∧
        t.nexthops[k']? = some nexthop' ∧
        (t.nexthops.set k ⟨1, some (iface, nexthop)⟩)[k']? = some nexthop' := by
    obtain ⟨k', nexthop', p, hk', hnexthop, hin, hp⟩ := h.nexthop slot' hmem href'
    have hne : k ≠ k' := by
      rintro rfl
      rw [hhop] at hnexthop
      cases hnexthop
      exact hin hfree
    exact ⟨k', nexthop', p, hk', hin, hp, hnexthop, (getElem?_set_ne hne).trans hnexthop⟩
  have hentry {slot' : Slot I} (hmem : slot' ∈ t.pool) :
      entryOf (t.nexthops.set k ⟨1, some (iface, nexthop)⟩) slot' = entryOf t.nexthops slot' := by
    by_cases href' : slot'.ref = 0
    · rw [entryOf_free href', entryOf_free href']
    · obtain ⟨k', nexthop', p, hk', -, -, hold, hnew⟩ := hkeep hmem href'
      simp [entryOf, href', hk', hold, hnew]
  refine ⟨⟨?_, ?_, ?_⟩, i, ?_, ?_⟩
  · intro slot' hmem
    rcases mem_or_eq_of_mem_set hmem with hmem | rfl
    · exact h.ref slot' hmem
    · exact Nat.le_refl 1
  · intro slot' hmem href'
    rcases mem_or_eq_of_mem_set hmem with hmem | rfl
    · exact h.length slot' hmem href'
    · exact hlen
  · intro slot' hmem href'
    rcases mem_or_eq_of_mem_set hmem with hmem | rfl
    · obtain ⟨k', nexthop', p, hk', hin, hp, -, hnew⟩ := hkeep hmem href'
      exact ⟨k', nexthop', p, hk', hnew, hin, hp⟩
    · exact ⟨k, _, _, rfl, getElem?_set_self hk, Nat.one_ne_zero, rfl⟩
  · rw [entry_eq, hslot]
    exact entryOf_free href
  · funext j
    rw [entry_eq]
    by_cases hj : j = i
    · subst hj
      rw [update_self, getElem?_set_self hi]
      simp [entryOf, hk]
    · rw [update_of_ne hj, getElem?_set_ne (fun heq => hj heq.symm), entry_eq]
      cases hslot' : t.pool[j]? with
      | none => rfl
      | some slot' => exact hentry (mem_of_getElem? hslot')

end Entries

section Runs

variable {I : Type} {cached : I → In6Addr → Bool} {t : Table I} {s s' : State I}
  {iface : Option I} {dst : In6Addr}

def Matches (iface : Option I) (dst : In6Addr) (key : Key I) : Prop :=
  (∀ f ∈ iface, key.1 = f) ∧ dst >>> (128 - key.2.1) = key.2.2

theorem hit_iff {slot : Slot I} (h : slot.ref ≠ 0) (hlen : slot.prefixLen ≤ 128) :
    Hit iface dst slot ↔ Matches iface dst (keyOf slot.nbrIface slot.addr slot.prefixLen) := by
  rw [Hit, netIsIpv6Prefix_iff hlen]
  exact and_iff_right h

variable [DecidableEq I]

/-- What `net_route_lookup` finds is a route with the longest prefix that matches. -/
def LongestMatch (t : Table I) (iface : Option I) (dst : In6Addr) : Option Nat → Prop
  | none => ∀ i key n, entry t i = some (key, n) → ¬ Matches iface dst key
  | some r => ∃ key n, entry t r = some (key, n) ∧ Matches iface dst key ∧
      ∀ i key' n', entry t i = some (key', n') → Matches iface dst key' → key'.2.1 ≤ key.2.1

theorem Fine.lookup (h : Fine t) (iface : Option I) (dst : In6Addr) :
    LongestMatch t iface dst (lookupLoop iface dst t.pool 0 none 0) := by
  have hhit {i : Nat} {key : Key I} {n : In6Addr} (hi : entry t i = some (key, n)) :
      ∃ slot ∈ t.pool, key = keyOf slot.nbrIface slot.addr slot.prefixLen ∧
        (Matches iface dst key → Hit iface dst slot) := by
    rw [entry_eq] at hi
    obtain ⟨slot, hslot, hi⟩ := bind_eq_some_iff.mp hi
    obtain ⟨href, hkey⟩ := entryOf_eq_some hi
    have hmem := mem_of_getElem? hslot
    refine ⟨slot, hmem, hkey, fun hmatch => ?_⟩
    exact (hit_iff href (h.length slot hmem href)).mpr (hkey ▸ hmatch)
  rcases lookupLoop_spec 0 0 none (fun _ => rfl) h.length with
    ⟨heq, hnone⟩ | ⟨r, slot, hslot, heq, hslothit, -, hbest⟩
  · rw [heq]
    intro i key n hi hmatch
    obtain ⟨slot, hmem, -, hto⟩ := hhit hi
    exact (hnone slot hmem (hto hmatch)).1 rfl
  · rw [heq, Nat.zero_add]
    have hmem := mem_of_getElem? hslot
    have href := hslothit.1
    obtain ⟨n, hn⟩ := h.entryOf_some hmem href
    refine ⟨_, n, by rw [entry_eq, hslot]; exact hn,
      (hit_iff href (h.length slot hmem href)).mp hslothit, fun i key' n' hi hmatch => ?_⟩
    obtain ⟨slot', hmem', rfl, hto⟩ := hhit hi
    exact hbest slot' hmem' (hto hmatch)

theorem lookup_table (t : Table I) (iface : Option I) (dst : In6Addr) :
    ∃ routes, netRouteLookup t iface dst =
      (lookupLoop iface dst t.pool 0 none 0, { t with routes }) := by
  rw [netRouteLookup]
  cases lookupLoop iface dst t.pool 0 none 0 <;> exact ⟨_, rfl⟩

structure Good (s : State I) : Prop where
  fine : Fine s.table
  map : Represents (entry s.table) s.want

theorem Good.insert (h : Good s) {iface : I} {addr : In6Addr} {len : Nat} (nexthop : In6Addr)
    (hlen : len ≤ 128) (hroom : ∃ slot ∈ s.table.pool, slot.ref = 0)
    (hfree : ∃ entry ∈ s.table.nexthops, entry.ref = 0)
    (hnew : s.want (keyOf iface addr len) = none) :
    Good ⟨(addNew s.table iface addr len nexthop).2,
      update s.want (keyOf iface addr len) (some nexthop)⟩ := by
  obtain ⟨hfine, i, hi, hentry⟩ := h.fine.addNew hlen hroom hfree
  refine ⟨hfine, ?_⟩
  rw [hentry]
  exact h.map.insert hi hnew nexthop

theorem Good.add (h : Good s) {iface : I} {addr nexthop : In6Addr} {len : Nat}
    (hp : PlainAdd cached s.table iface addr len nexthop) :
    Good ⟨(netRouteAdd cached s.table iface addr len nexthop).2,
      update s.want (keyOf iface addr len) (some nexthop)⟩ := by
  obtain ⟨routes, hl⟩ := lookup_table s.table (some iface) addr
  have hlookup := h.fine.lookup (some iface) addr
  have hsame := hp.same
  have hroom := hp.room
  rw [netRouteAdd, if_neg hp.specified, if_neg (not_not.mpr hp.known), hl]
  generalize lookupLoop (some iface) addr s.table.pool 0 none 0 = route at hlookup hsame hroom
  have hgood : Good ⟨{ s.table with routes }, s.want⟩ := ⟨{ h.fine with }, h.map⟩
  cases route with
  | none =>
    refine hgood.insert nexthop hp.fits (hroom.resolve_left (by simp)) hp.free
      (h.map.eq_none fun i v hi => hlookup i _ v hi ⟨fun f hf => ?_, rfl⟩)
    exact some.inj hf
  | some r =>
    -- the route that is found has the same key
    obtain ⟨key, n, hr, hmatch, -⟩ := hlookup
    have hbind := hr
    rw [entry_eq] at hbind
    obtain ⟨slot, hslot, hof⟩ := bind_eq_some_iff.mp hbind
    obtain ⟨href, rfl⟩ := entryOf_eq_some hof
    have hkey : keyOf slot.nbrIface slot.addr slot.prefixLen = keyOf iface addr len := by
      have hiface : slot.nbrIface = iface := hmatch.1 iface rfl
      have hbits : addr >>> (128 - slot.prefixLen) = slot.addr >>> (128 - slot.prefixLen) :=
        hmatch.2
      rw [keyOf, keyOf, hiface, ← hbits, hsame r rfl slot hslot]
    rw [hkey] at hr
    dsimp only
    split
    · next hold =>
      have hn : n = nexthop := by
        rw [entry, hslot, bind_some, if_neg href] at hr
        obtain ⟨_, hn', heq⟩ := map_eq_some_iff.mp hr
        rw [← (Prod.mk.inj heq).2]
        exact some.inj (hn'.symm.trans hold)
      have hwant : s.want (keyOf iface addr len) = some nexthop :=
        (h.map.mem _ _).mpr ⟨r, hn ▸ hr⟩
      rw [← hwant, update_eq_self]
      exact hgood
    · have hdel : Good ⟨netRouteDel { s.table with routes } r,
          update s.want (keyOf iface addr len) none⟩ := by
        refine ⟨hgood.fine.del r, ?_⟩
        rw [hgood.fine.entry_del]
        exact h.map.erase hr
      obtain ⟨hroom', hhops'⟩ := hgood.fine.room_del hslot href
      have hins := hdel.insert nexthop hp.fits hroom' (hhops' ▸ hp.free) (update_self ..)
      rwa [update_idem] at hins

theorem Good.step (h : Good s) {a : Act I} (hp : Plain cached s a)
    (hstep : step cached s a = some s') : Good s' := by
  cases a with
  | add iface addr len nexthop =>
    cases hstep
    exact h.add hp
  | del r =>
    cases hstep
    refine ⟨h.fine.del r, ?_⟩
    rw [h.fine.entry_del]
    cases hr : entry s.table r with
    | none =>
      have hsame : update (entry s.table) r none = entry s.table := by
        rw [← hr, update_eq_self]
      simpa only [hr, hsame] using h.map
    | some p => simpa only [hr] using h.map.erase hr
  | lookup iface dst =>
    cases hstep
    obtain ⟨_, hl⟩ := lookup_table s.table iface dst
    rw [hl]
    exact ⟨{ h.fine with }, h.map⟩

/-- In every run of plain additions, deletions and lookups the table holds the routes that have
been added last and not deleted, each with its latest next hop, and every lookup finds a longest
match. -/
theorem table_of_run {pool : List (Slot I)} (hpool : ∀ slot ∈ pool, slot.ref = 0)
    (hrun : GuardedRun (step cached) (Plain cached) (init pool nexthops) s) :
    (∀ key n, s.want key = some n ↔ ∃ i, entry s.table i = some (key, n)) ∧
      (∀ i j key n n', entry s.table i = some (key, n) → entry s.table j = some (key, n') → i = j) ∧
      ∀ iface dst, LongestMatch s.table iface dst (netRouteLookup s.table iface dst).1 := by
  have hinit : Good (init pool nexthops : State I) := by
    refine ⟨⟨fun slot hmem => ?_, fun slot hmem href => absurd (hpool slot hmem) href,
      fun slot hmem href => absurd (hpool slot hmem) href⟩, ?_⟩
    · exact hpool slot hmem ▸ Nat.zero_le 1
    · have hnone : entry (init pool nexthops : State I).table = fun _ => none := by
        funext i
        rw [entry_eq]
        cases hslot : (init pool nexthops : State I).table.pool[i]? with
        | none => rfl
        | some slot => exact entryOf_free (hpool slot (mem_of_getElem? hslot))
      rw [hnone]
      exact represents_empty
  have h : Good s := hrun.invariant (fun _ _ _ hs => hs.step) hinit
  refine ⟨h.map.mem, h.map.inj, fun iface dst => ?_⟩
  obtain ⟨_, hl⟩ := lookup_table s.table iface dst
  rw [hl]
  exact h.fine.lookup iface dst

instance PlainAdd.instDecidable (cached : I → In6Addr → Bool) (t : Table I) (iface : I)
    (addr : In6Addr) (prefixLen : Nat) (nexthop : In6Addr) :
    Decidable (PlainAdd cached t iface addr prefixLen nexthop) :=
  decidable_of_iff (prefixLen ≤ 128 ∧ cached iface nexthop ∧
      ((lookupLoop (some iface) addr t.pool 0 none 0).isSome ∨ ∃ slot ∈ t.pool, slot.ref = 0) ∧
      addr ≠ 0 ∧ (∃ entry ∈ t.nexthops, entry.ref = 0) ∧
      ∀ r ∈ lookupLoop (some iface) addr t.pool 0 none 0, ∀ slot ∈ t.pool[r]?,
        slot.prefixLen = prefixLen)
    ⟨fun ⟨h1, h2, h3, h4, h5, h6⟩ => ⟨h1, h2, h3, h4, h5, h6⟩,
      fun h => ⟨h.fits, h.known, h.room, h.specified, h.free, h.same⟩⟩

instance Plain.instDecidable (cached : I → In6Addr → Bool) (s : State I) :
    (a : Act I) → Decidable (Plain cached s a)
  | .add _ _ _ _ => inferInstanceAs (Decidable (PlainAdd ..))
  | .del _ | .lookup _ _ => inferInstanceAs (Decidable True)

end Runs

def small : State Unit :=
  init (replicate 3 ⟨0, (), 0, 0, (), []⟩) (replicate 3 ⟨0, none⟩)

def addrOf (high low : Nat) : In6Addr := BitVec.ofNat 128 (high * 2 ^ 112 + low)

def updated : Option (State Unit) :=
  [.add () (addrOf 0x2001 0) 16 (addrOf 0xFE80 1), .add () (addrOf 0x2002 0) 16 (addrOf 0xFE80 1),
    .add () (addrOf 0x2001 7) 16 (addrOf 0xFE80 2), .lookup none (addrOf 0x2002 5), .del 1].foldlM
    (fun s a => if Plain (fun _ _ => true) s a then step (fun _ _ => true) s a else none) small

theorem updated_isSome : updated.isSome := by decide +kernel

theorem updated_lookup :
    (netRouteLookup (updated.get updated_isSome).table none (addrOf 0x2001 5)).1 = some 0 ∧
      LongestMatch (updated.get updated_isSome).table none (addrOf 0x2001 5)
        (netRouteLookup (updated.get updated_isSome).table none (addrOf 0x2001 5)).1 ∧
      ∃ i, entry (updated.get updated_isSome).table i =
        some (keyOf () (addrOf 0x2001 0) 16, addrOf 0xFE80 2) := by
  have h := table_of_run (by decide) (.of_foldlM (step fun _ _ => true) (Plain fun _ _ => true) _
    (some_get updated_isSome).symm)
  exact ⟨by decide +kernel, h.2.2 none _, (h.1 _ _).mp (by decide +kernel)⟩

/-- A route of more bits takes the place of the one that covers it; and when all next hops have been
used once, a new route comes without its own. -/
theorem route_lost : (∃ s, [.add () (addrOf 0x2001 0) 16 (addrOf 0xFE80 1),
        .add () (addrOf 0x2001 1) 128 (addrOf 0xFE80 2)].foldlM (step fun _ _ => true) small =
        some s ∧
      s.want (keyOf () (addrOf 0x2001 0) 16) = some (addrOf 0xFE80 1) ∧
      (netRouteLookup s.table none (addrOf 0x2001 5)).1 = none) ∧
    ∃ s, ((replicate 3 [Act.add () (addrOf 0x2001 0) 16 (addrOf 0xFE80 1), .del 0]).flatten ++
        [Act.add () (addrOf 0x2001 0) 16 (addrOf 0xFE80 2)]).foldlM (step fun _ _ => true) small =
        some s ∧
      s.want (keyOf () (addrOf 0x2001 0) 16) = some (addrOf 0xFE80 2) ∧
      netRouteGetNexthop s.table 0 = some (addrOf 0xFE80 1) :=
  ⟨⟨_, rfl, by decide +kernel, by decide +kernel⟩, _, rfl, by decide +kernel, by decide +kernel⟩

end Zephyr.Route
