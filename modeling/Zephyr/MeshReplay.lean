import Zephyr.Run

/-! The network layer of a mesh node: the IV index with its update procedure, the counter of
sequence numbers, and the list that tells replayed PDUs. The list is searched up to its first empty
slot, and an IV update can leave such a slot in front of the slot of a source. -/

namespace Zephyr.Mesh

abbrev Addr := BitVec 16

abbrev Seq := BitVec 24

/-- A slot of `bt_mesh.rpl`; it is empty if it has no source. -/
structure Rpl where
  src : Addr
  oldIv : Bool
  seq : Seq
  deriving DecidableEq

def emptySlot : Rpl := ⟨0, false, 0⟩

/-- The fields of `bt_mesh` that the IV update and the replay list go by. -/
structure Net where
  ivIndex : BitVec 32
  seq : Seq
  ivUpdate : Bool
  ivuTest : Bool
  pendingUpdate : Bool
  lastUpdate : Int
  rpl : List Rpl

structure Config where
  ivUpdateTest : Bool

def Net.iviTx (n : Net) : BitVec 32 := n.ivIndex - if n.ivUpdate then 1 else 0

structure Rx where
  src : Addr
  oldIv : Bool
  seq : Seq

def isReplay (rx : Rx) : List Rpl → Bool × List Rpl
  | [] => (true, [])
  | r :: rest =>
    if r.src = 0 then (false, ⟨rx.src, rx.oldIv, rx.seq⟩ :: rest)
    else if r.src = rx.src then
      if rx.oldIv && !r.oldIv then (true, r :: rest)
      else if !rx.oldIv && r.oldIv || decide (r.seq < rx.seq) then
        (false, { r with seq := rx.seq, oldIv := rx.oldIv } :: rest)
      else (true, r :: rest)
    else ((isReplay rx rest).1, r :: (isReplay rx rest).2)

def resetSlot (r : Rpl) : Rpl :=
  if r.src ≠ 0 then if r.oldIv then emptySlot else { r with oldIv := true } else r

def btMeshRplReset (rpl : List Rpl) : List Rpl := rpl.map resetSlot

def rplClear (rpl : List Rpl) : List Rpl := rpl.map fun _ => emptySlot

def doUpdate (n : Net) (ivIndex : BitVec 32) (ivUpdate : Bool) (now : Int) : Net :=
  if ivUpdate then
    { n with ivUpdate := true, ivIndex, rpl := btMeshRplReset n.rpl, lastUpdate := now }
  else { n with ivUpdate := false, seq := 0, lastUpdate := now }

def minimumDuration : Int := 96 * 3600 * 1000

def tryUpdate (cfg : Config) (n : Net) (ivIndex : BitVec 32) (ivUpdate : Bool) (now : Int)
    (txInProgress : Bool) : Net × Bool :=
  if !(cfg.ivUpdateTest && n.ivuTest) && decide (now - n.lastUpdate < minimumDuration) then
    (n, false)
  else if !ivUpdate && txInProgress then ({ n with pendingUpdate := true }, false)
  else (doUpdate n ivIndex ivUpdate now, true)

def btMeshNetIvUpdate (cfg : Config) (n : Net) (ivIndex : BitVec 32) (ivUpdate : Bool) (now : Int)
    (txInProgress : Bool) : Net × Bool :=
  if n.ivUpdate then
    if ivIndex ≠ n.ivIndex then (n, false)
    else if ivUpdate then (n, false)
    else tryUpdate cfg n ivIndex ivUpdate now txInProgress
  else if ivIndex = n.ivIndex then (n, false)
  else if ivIndex < n.ivIndex ∨ n.ivIndex + 42 < ivIndex then (n, false)
  else if n.ivIndex + 1 < ivIndex then
    (doUpdate { n with rpl := rplClear n.rpl, ivIndex, seq := 0 } ivIndex ivUpdate now, true)
  else if ivIndex = n.ivIndex + 1 ∧ !ivUpdate then (n, false)
  else if !ivUpdate then (n, false)
  else if ivIndex ≠ n.ivIndex + 1 then (n, false)
  else tryUpdate cfg n ivIndex ivUpdate now txInProgress

/-- The ways in which `bt_mesh_net_iv_update` changes the IV index, the counter and the replay
list. -/
inductive IvChange (n : Net) : Net → Prop
  | none {n' : Net} (hindex : n'.ivIndex = n.ivIndex) (hseq : n'.seq = n.seq)
      (hupdate : n'.ivUpdate = n.ivUpdate) (hrpl : n'.rpl = n.rpl) : IvChange n n'
  | enter {n' : Net} (hnormal : n.ivUpdate = false)
      (hindex : n'.ivIndex.toNat = n.ivIndex.toNat + 1) (hseq : n'.seq = n.seq)
      (hupdate : n'.ivUpdate = true) (hrpl : n'.rpl = btMeshRplReset n.rpl) : IvChange n n'
  | leave {n' : Net} (hold : n.ivUpdate = true) (hindex : n'.ivIndex = n.ivIndex)
      (hseq : n'.seq = 0) (hupdate : n'.ivUpdate = false) (hrpl : n'.rpl = n.rpl) : IvChange n n'
  | recover {n' : Net} (hnormal : n.ivUpdate = false)
      (hindex : n.ivIndex.toNat + 2 ≤ n'.ivIndex.toNat) (hseq : n'.seq = 0)
      (hrpl : n'.rpl = rplClear n.rpl) : IvChange n n'

theorem btMeshRplReset_rplClear (rpl : List Rpl) :
    btMeshRplReset (rplClear rpl) = rplClear rpl := by
  unfold btMeshRplReset rplClear
  rw [List.map_map]
  rfl

theorem ivChange_ivUpdate (cfg : Config) (n : Net) (ivIndex : BitVec 32) (ivUpdate : Bool)
    (now : Int) (txInProgress : Bool) :
    IvChange n (btMeshNetIvUpdate cfg n ivIndex ivUpdate now txInProgress).1 := by
  have hsame : IvChange n n := .none rfl rfl rfl rfl
  unfold btMeshNetIvUpdate
  split
  · next hupdate =>
    split
    · exact hsame
    split
    · exact hsame
    next hflag =>
    unfold tryUpdate
    split
    · exact hsame
    split
    · exact .none rfl rfl rfl rfl
    · rw [doUpdate, if_neg hflag]
      exact .leave hupdate rfl rfl rfl rfl
  next hupdate =>
  have hnormal : n.ivUpdate = false := by simpa using hupdate
  split
  · exact hsame
  next hne =>
  split
  · exact hsame
  next hrange =>
  have hlt : n.ivIndex.toNat < ivIndex.toNat := by
    rw [BitVec.lt_def] at hrange
    have : ivIndex.toNat ≠ n.ivIndex.toNat := fun h => hne (BitVec.eq_of_toNat_eq h)
    omega
  have hnext : (n.ivIndex + 1).toNat = n.ivIndex.toNat + 1 := by
    exact Nat.mod_eq_of_lt (by simpa using (by omega : n.ivIndex.toNat + 1 < 2 ^ 32))
  split
  · next hjump =>
    have hindex : n.ivIndex.toNat + 2 ≤ ivIndex.toNat := by
      rw [BitVec.lt_def] at hjump
      omega
    cases ivUpdate with
    | true => exact .recover hnormal hindex rfl (btMeshRplReset_rplClear _)
    | false => exact .recover hnormal hindex rfl rfl
  split
  · exact hsame
  split
  · exact hsame
  next hflag =>
  split
  · exact hsame
  next hindex =>
  have hindex := not_not.mp hindex
  unfold tryUpdate
  split
  · exact hsame
  split
  · exact .none rfl rfl rfl rfl
  · rw [doUpdate, if_pos (by simpa using hflag)]
    exact .enter hnormal (by rw [hindex, hnext]) rfl rfl rfl

open List

structure Pdu where
  src : Addr
  unicast : src ≠ 0
  iv : BitVec 32
  seq : Seq

def Pdu.Current (p : Pdu) (n : Net) : Prop :=
  p.iv.toNat = n.ivIndex.toNat ∨ p.iv.toNat + 1 = n.ivIndex.toNat

instance (p : Pdu) (n : Net) : Decidable (p.Current n) := inferInstanceAs (Decidable (_ ∨ _))

def Pdu.rx (p : Pdu) (n : Net) : Rx :=
  ⟨p.src, p.iv.getLsbD 0 != n.ivIndex.getLsbD 0, p.seq⟩

structure Node where
  net : Net
  accepted : List Pdu

inductive ReplayAct where
  | pdu (p : Pdu)
  | ivUpdate (ivIndex : BitVec 32) (ivUpdate : Bool) (now : Int) (txInProgress : Bool)

def replayStep (cfg : Config) (s : Node) : ReplayAct → Option Node
  | .pdu p =>
    if p.Current s.net then
      let r := isReplay (p.rx s.net) s.net.rpl
      some ⟨{ s.net with rpl := r.2 }, if r.1 then s.accepted else s.accepted ++ [p]⟩
    else some s
  | .ivUpdate ivIndex ivUpdate now txInProgress =>
    some { s with net := (btMeshNetIvUpdate cfg s.net ivIndex ivUpdate now txInProgress).1 }

def NoReplay (accepted : List Pdu) : Prop :=
  accepted.Pairwise fun p q => p.src = q.src → p.iv = q.iv → p.seq < q.seq

def Reaches (rpl : List Rpl) (src : Addr) : Prop :=
  rpl.Pairwise fun r r' => r.src = 0 → r'.src ≠ src

instance (rpl : List Rpl) (src : Addr) : Decidable (Reaches rpl src) :=
  inferInstanceAs (Decidable (List.Pairwise _ _))

def ReachesSource (s : Node) : ReplayAct → Prop
  | .pdu p => Reaches s.net.rpl p.src
  | _ => True

variable {cfg : Config} {n : Net} {rx : Rx} {rpl : List Rpl} {r : Rpl} {src : Addr} {p : Pdu}
  {s s' : Node} {pre post : List Rpl} {n' : Net}

def Newer (rx : Rx) (r : Rpl) : Prop :=
  r.oldIv.toNat > rx.oldIv.toNat ∨ r.oldIv = rx.oldIv ∧ r.seq < rx.seq

theorem isReplay_cases (rx : Rx) (rpl : List Rpl) :
    (∃ pre r post, rpl = pre ++ r :: post ∧ (∀ x ∈ pre, x.src ≠ 0 ∧ x.src ≠ rx.src) ∧
      (r.src = 0 ∨ r.src = rx.src ∧ Newer rx r) ∧
        isReplay rx rpl = (false, pre ++ ⟨rx.src, rx.oldIv, rx.seq⟩ :: post)) ∨
    isReplay rx rpl = (true, rpl) := by
  induction rpl with
  | nil => exact .inr rfl
  | cons r rest ih =>
    rw [isReplay]
    split
    · next h0 => exact .inl ⟨[], r, rest, rfl, by simp, .inl h0, rfl⟩
    next h0 =>
    split
    · next hsrc =>
      split
      · exact .inr rfl
      split
      · next hold hnew =>
        refine .inl ⟨[], r, rest, rfl, by simp, .inr ⟨hsrc, ?_⟩, by simp [hsrc]⟩
        unfold Newer
        cases hr : r.oldIv <;> cases hx : rx.oldIv <;> simp_all
      · exact .inr rfl
    · next hsrc =>
      rcases ih with ⟨pre, r', post, rfl, hpre, hr, heq⟩ | heq
      · refine .inl ⟨r :: pre, r', post, rfl, ?_, hr, by rw [heq, cons_append]⟩
        exact forall_mem_cons.mpr ⟨⟨h0, hsrc⟩, hpre⟩
      · exact .inr (by rw [heq])

theorem isReplay_of_hole (hr : r.src = 0)
    (hpre : ∀ x ∈ pre, x.src ≠ rx.src) : (isReplay rx (pre ++ r :: post)).1 = false := by
  induction pre with
  | nil => simp [isReplay, hr]
  | cons x pre ih =>
    obtain ⟨hx, hpre⟩ := forall_mem_cons.mp hpre
    rw [cons_append, isReplay]
    split
    · rfl
    · exact ih hpre

def Rpl.iv (r : Rpl) (n : Net) : Nat := n.ivIndex.toNat - r.oldIv.toNat

def Covers (n : Net) (r : Rpl) (p : Pdu) : Prop :=
  r.src = p.src ∧ (p.iv.toNat < r.iv n ∨ p.iv.toNat = r.iv n ∧ p.seq ≤ r.seq)

structure Faithful (s : Node) : Prop where
  le : ∀ p ∈ s.accepted, p.iv.toNat ≤ s.net.ivIndex.toNat
  oldIv : ∀ r ∈ s.net.rpl, r.oldIv = true → 0 < s.net.ivIndex.toNat
  covered : ∀ p ∈ s.accepted, s.net.ivIndex.toNat ≤ p.iv.toNat + 1 →
    ∃ r ∈ s.net.rpl, Covers s.net r p
  accepted : ∀ r ∈ s.net.rpl, r.src ≠ 0 →
    ∃ p ∈ s.accepted, p.src = r.src ∧ p.iv.toNat = r.iv s.net ∧ p.seq = r.seq
  unique : s.net.rpl.Pairwise fun r r' => r.src = r'.src → r.src = 0
  noReplay : NoReplay s.accepted

theorem rx_oldIv (h : p.Current n) : p.iv.toNat = n.ivIndex.toNat - (p.rx n).oldIv.toNat ∧
    ((p.rx n).oldIv = true → 0 < n.ivIndex.toNat) := by
  have hbit : (p.rx n).oldIv =
      (decide (p.iv.toNat % 2 = 1) != decide (n.ivIndex.toNat % 2 = 1)) := by
    simp [Pdu.rx, BitVec.getLsbD]
  rcases h with h | h
  · have : (p.rx n).oldIv = false := by simp [hbit, h]
    simp [this, h]
  · have : (p.rx n).oldIv = true := by
      rw [hbit, ← h]
      rcases Nat.mod_two_eq_zero_or_one p.iv.toNat with h0 | h0 <;> simp [h0, Nat.add_mod]
    simp [this, ← h]

def Pdu.slot (p : Pdu) (n : Net) : Rpl := ⟨p.src, (p.rx n).oldIv, p.seq⟩

theorem slot_iv (h : p.Current n) : (p.slot n).iv n = p.iv.toNat := (rx_oldIv h).1.symm

theorem Newer.lt (hn : Newer (p.rx n) r) (hp : p.Current n)
    (hr : r.oldIv = true → 0 < n.ivIndex.toNat) :
    r.iv n < p.iv.toNat ∨ r.iv n = p.iv.toNat ∧ r.seq < p.seq := by
  obtain ⟨hiv, hpos⟩ := rx_oldIv hp
  rw [hiv, Rpl.iv]
  rcases hn with hlt | ⟨heq, hseq⟩
  · left
    have h1 : r.oldIv = true := by
      cases hro : r.oldIv <;> simp [hro] at hlt ⊢
    have := hr h1
    have := Bool.toNat_le r.oldIv
    omega
  · right
    rw [heq]
    exact ⟨rfl, hseq⟩

theorem Current.le (h : p.Current n) : p.iv.toNat ≤ n.ivIndex.toNat := by
  rcases h with h | h <;> omega

theorem Current.ge (h : p.Current n) : n.ivIndex.toNat ≤ p.iv.toNat + 1 := by
  rcases h with h | h <;> omega

theorem Faithful.accept (h : Faithful s) (hp : p.Current s.net)
    (hrpl : s.net.rpl = pre ++ r :: post) (hpre : ∀ x ∈ pre, x.src ≠ p.src)
    (hpost : ∀ x ∈ post, x.src ≠ p.src) (hr : r.src = 0 ∨ r.src = p.src ∧ Newer (p.rx s.net) r) :
    Faithful ⟨{ s.net with rpl := pre ++ p.slot s.net :: post }, s.accepted ++ [p]⟩ := by
  have hmem : ∀ x ∈ s.net.rpl, x = r ∨ x ∈ pre ++ p.slot s.net :: post := by
    intro x hx
    rw [hrpl, mem_append, mem_cons] at hx
    simp only [mem_append]
    tauto
  have hmem' : ∀ x ∈ pre ++ p.slot s.net :: post, x = p.slot s.net ∨ x ∈ s.net.rpl := by
    intro x hx
    rw [mem_append, mem_cons] at hx
    rw [hrpl, mem_append]
    tauto
  have holdr : r.oldIv = true → 0 < s.net.ivIndex.toNat := h.oldIv r (by simp [hrpl])
  -- the PDU is newer than any other that has been accepted of its source
  have hnewer : ∀ q ∈ s.accepted, q.src = p.src → s.net.ivIndex.toNat ≤ q.iv.toNat + 1 →
      q.iv.toNat < p.iv.toNat ∨ q.iv.toNat = p.iv.toNat ∧ q.seq < p.seq := by
    intro q hq hsrc hiv
    obtain ⟨x, hx, hxsrc, hcov⟩ := h.covered q hq hiv
    have hxp := hxsrc.trans hsrc
    obtain rfl : x = r := by
      rw [hrpl, mem_append, mem_cons] at hx
      rcases hx with hx | hx | hx
      · exact absurd hxp (hpre x hx)
      · exact hx
      · exact absurd hxp (hpost x hx)
    rcases hr with hr | ⟨-, hr⟩
    · exact absurd (hxp.symm.trans hr) p.unicast
    · have hlt := hr.lt hp holdr
      rcases hcov with hcov | ⟨hcov, hseq⟩
      · left
        omega
      · rcases hlt with hlt | ⟨hlt, hseq'⟩
        · left
          omega
        · refine .inr ⟨hcov.trans hlt, ?_⟩
          rw [BitVec.le_def] at hseq
          rw [BitVec.lt_def] at hseq' ⊢
          omega
  refine ⟨?_, ?_, ?_, ?_, ?_, ?_⟩
  · intro q hq
    rcases mem_append.mp hq with hq | hq
    · exact h.le q hq
    · obtain rfl := mem_singleton.mp hq
      exact Current.le hp
  · intro x hx
    rcases hmem' x hx with rfl | hx
    · exact (rx_oldIv hp).2
    · exact h.oldIv x hx
  · intro q hq hiv
    have hself : Covers s.net (p.slot s.net) p :=
      ⟨rfl, .inr ⟨(slot_iv hp).symm, BitVec.le_refl _⟩⟩
    have hnew : p.slot s.net ∈ pre ++ p.slot s.net :: post := by simp
    rcases mem_append.mp hq with hq | hq
    · by_cases hsrc : q.src = p.src
      · refine ⟨p.slot s.net, hnew, hsrc.symm, ?_⟩
        have hlt := hnewer q hq hsrc hiv
        show q.iv.toNat < (p.slot s.net).iv s.net ∨ _
        rw [slot_iv hp]
        exact hlt.imp_right fun ⟨heq, hseq⟩ => ⟨heq.trans (slot_iv hp).symm, BitVec.le_of_lt hseq⟩
      · obtain ⟨x, hx, hxsrc, hcov⟩ := h.covered q hq hiv
        rcases hmem x hx with rfl | hx
        · rcases hr with hr | ⟨hr, -⟩
          · exact absurd (hxsrc.symm.trans hr) q.unicast
          · exact absurd (hxsrc.symm.trans hr) hsrc
        · exact ⟨x, hx, hxsrc, hcov⟩
    · obtain rfl := mem_singleton.mp hq
      exact ⟨_, hnew, hself⟩
  · intro x hx hne
    rcases hmem' x hx with rfl | hx
    · exact ⟨p, by simp, rfl, (slot_iv hp).symm, rfl⟩
    · obtain ⟨q, hq, hrest⟩ := h.accepted x hx hne
      exact ⟨q, mem_append_left _ hq, hrest⟩
  · have hu := h.unique
    rw [hrpl, pairwise_append, pairwise_cons] at hu
    obtain ⟨hu1, ⟨-, hu2⟩, hu3⟩ := hu
    show List.Pairwise _ (pre ++ p.slot s.net :: post)
    rw [pairwise_append, pairwise_cons]
    refine ⟨hu1, ⟨fun x hx heq => absurd heq.symm (hpost x hx), hu2⟩, fun x hx y hy heq => ?_⟩
    rcases mem_cons.mp hy with rfl | hy
    · exact absurd heq (hpre x hx)
    · exact hu3 x hx y (mem_cons_of_mem _ hy) heq
  · refine pairwise_append.mpr ⟨h.noReplay, pairwise_singleton _ _, ?_⟩
    intro q hq p' hp' hsrc hiv
    obtain rfl := mem_singleton.mp hp'
    rcases hnewer q hq hsrc (hiv ▸ Current.ge hp) with hlt | ⟨-, hseq⟩
    · rw [hiv] at hlt
      exact absurd hlt (Nat.lt_irrefl _)
    · exact hseq

theorem Faithful.pdu (h : Faithful s) (hp : p.Current s.net) (hreach : Reaches s.net.rpl p.src) :
    Faithful ⟨{ s.net with rpl := (isReplay (p.rx s.net) s.net.rpl).2 },
      if (isReplay (p.rx s.net) s.net.rpl).1 then s.accepted else s.accepted ++ [p]⟩ := by
  rcases isReplay_cases (p.rx s.net) s.net.rpl with ⟨_, r, _, hrpl, hpre, hr, heq⟩ | heq
  · rw [heq]
    refine h.accept hp hrpl (fun x hx => (hpre x hx).2) ?_ hr
    intro x hx hsrc
    rcases hr with hr | ⟨hr, -⟩
    · rw [Reaches, hrpl, pairwise_append, pairwise_cons] at hreach
      exact hreach.2.1.1 x hx hr hsrc
    · have hu := h.unique
      rw [hrpl, pairwise_append, pairwise_cons] at hu
      have hr0 := hu.2.1.1 x hx (hr.trans hsrc.symm)
      exact p.unicast (hr.symm.trans hr0)
  · rw [heq]
    exact h

theorem mem_rplClear {x : Rpl} (h : x ∈ rplClear rpl) : x = emptySlot := by
  obtain ⟨_, _, rfl⟩ := mem_map.mp h
  rfl

theorem resetSlot_src (r : Rpl) : (resetSlot r).src = r.src ∨ (resetSlot r).src = 0 := by
  unfold resetSlot
  split
  · split
    · exact .inr rfl
    · exact .inl rfl
  · exact .inl rfl

theorem resetSlot_of_ne (h : (resetSlot r).src ≠ 0) : r.src ≠ 0 ∧ r.oldIv = false ∧
    resetSlot r = { r with oldIv := true } := by
  unfold resetSlot at h ⊢
  split at h
  · next hne =>
    split at h
    · exact absurd rfl h
    · next hold => exact ⟨hne, by simpa using hold, by rw [if_pos hne, if_neg hold]⟩
  · next hne => exact absurd (not_not.mp hne) h

theorem Faithful.enter (h : Faithful s) (hindex : n'.ivIndex.toNat = s.net.ivIndex.toNat + 1)
    (hrpl : n'.rpl = btMeshRplReset s.net.rpl) : Faithful ⟨n', s.accepted⟩ := by
  refine ⟨fun p hp => ?_, fun x _ _ => ?_, fun p hp hiv => ?_, fun x hx hne => ?_, ?_, h.noReplay⟩
  · have := h.le p hp
    show p.iv.toNat ≤ n'.ivIndex.toNat
    omega
  · show 0 < n'.ivIndex.toNat
    omega
  · -- what is still told from a replay is of the index that was the current one
    have hiv : n'.ivIndex.toNat ≤ p.iv.toNat + 1 := hiv
    obtain ⟨r, hr, hsrc, hcov⟩ := h.covered p hp (by omega)
    have hnew : r.oldIv = false := by
      refine Bool.eq_false_iff.mpr fun hold => ?_
      have hpos := h.oldIv r hr hold
      rw [Rpl.iv, hold, Bool.toNat_true] at hcov
      omega
    have hreset : resetSlot r = { r with oldIv := true } := by
      rw [resetSlot, if_pos (hsrc ▸ p.unicast), if_neg (by simp [hnew])]
    have hriv : (resetSlot r).iv n' = r.iv s.net := by
      rw [hreset, Rpl.iv, Rpl.iv, hnew, Bool.toNat_true, Bool.toNat_false]
      omega
    refine ⟨resetSlot r, hrpl ▸ mem_map_of_mem hr, ?_, ?_⟩
    · rw [hreset]
      exact hsrc
    · rw [hriv, hreset]
      exact hcov
  · rw [hrpl] at hx
    obtain ⟨r, hr, rfl⟩ := mem_map.mp hx
    obtain ⟨hrne, hnew, hreset⟩ := resetSlot_of_ne hne
    obtain ⟨p, hp, hsrc, hiv, hseq⟩ := h.accepted r hr hrne
    refine ⟨p, hp, by rw [hreset]; exact hsrc, ?_, by rw [hreset]; exact hseq⟩
    rw [hiv, hreset, Rpl.iv, Rpl.iv, hnew, Bool.toNat_false]
    show _ = n'.ivIndex.toNat - 1
    omega
  · show List.Pairwise _ n'.rpl
    rw [hrpl, btMeshRplReset, pairwise_map]
    refine h.unique.imp fun {r r'} hu heq => ?_
    by_contra hne
    have hsrc := (resetSlot_src r).resolve_right hne
    have hsrc' := (resetSlot_src r').resolve_right (heq ▸ hne)
    exact hne (hsrc.trans (hu (by rw [← hsrc, heq, hsrc'])))

theorem Faithful.recover (h : Faithful s)
    (hindex : s.net.ivIndex.toNat + 2 ≤ n'.ivIndex.toNat) (hrpl : n'.rpl = rplClear s.net.rpl) :
    Faithful ⟨n', s.accepted⟩ := by
  refine ⟨fun p hp => ?_, fun x hx => ?_, fun p hp hiv => ?_, fun x hx hne => ?_, ?_, h.noReplay⟩
  · have := h.le p hp
    show p.iv.toNat ≤ n'.ivIndex.toNat
    omega
  · obtain rfl := mem_rplClear (hrpl ▸ hx)
    exact nofun
  · have := h.le p hp
    have hiv : n'.ivIndex.toNat ≤ p.iv.toNat + 1 := hiv
    omega
  · obtain rfl := mem_rplClear (hrpl ▸ hx)
    exact absurd rfl hne
  · show List.Pairwise _ n'.rpl
    rw [hrpl]
    refine pairwise_of_forall_mem_list fun x hx y _ _ => ?_
    obtain rfl := mem_rplClear hx
    rfl

theorem Faithful.congr (h : Faithful s) (hindex : n'.ivIndex = s.net.ivIndex)
    (hrpl : n'.rpl = s.net.rpl) : Faithful ⟨n', s.accepted⟩ := by
  have hiv : ∀ r : Rpl, r.iv n' = r.iv s.net := fun r => by rw [Rpl.iv, Rpl.iv, hindex]
  obtain ⟨h1, h2, h3, h4, h5, h6⟩ := h
  constructor <;> simp only [hindex, hrpl, Covers, hiv] at * <;> assumption

theorem faithful_ivUpdate (h : Faithful s) (cfg : Config) (ivIndex : BitVec 32) (ivUpdate : Bool)
    (now : Int) (txInProgress : Bool) :
    Faithful { s with
      net := (btMeshNetIvUpdate cfg s.net ivIndex ivUpdate now txInProgress).1 } := by
  have hchange := ivChange_ivUpdate cfg s.net ivIndex ivUpdate now txInProgress
  cases hchange with
  | none hindex _ _ hrpl => exact h.congr hindex hrpl
  | leave _ hindex _ _ hrpl => exact h.congr hindex hrpl
  | enter _ hindex _ _ hrpl => exact h.enter hindex hrpl
  | recover _ hindex _ hrpl => exact h.recover hindex hrpl

theorem faithful_step {a : ReplayAct} (h : Faithful s) (ha : ReachesSource s a)
    (hstep : replayStep cfg s a = some s') : Faithful s' := by
  cases a with
  | pdu p =>
    rw [replayStep] at hstep
    split at hstep
    · next hp => exact Option.some.inj hstep ▸ h.pdu hp ha
    · exact Option.some.inj hstep ▸ h
  | ivUpdate ivIndex ivUpdate now txInProgress =>
    exact Option.some.inj hstep ▸ faithful_ivUpdate h ..

theorem exists_hole (h : ¬ Reaches rpl src) : ∃ pre r post y, rpl = pre ++ r :: post ∧ r.src = 0 ∧
    y ∈ post ∧ y.src = src := by
  induction rpl with
  | nil => exact absurd List.Pairwise.nil h
  | cons r rest ih =>
    by_cases hrest : Reaches rest src
    · rw [Reaches, pairwise_cons, not_and'] at h
      have hr := h hrest
      push Not at hr
      obtain ⟨y, hy, hr0, hys⟩ := hr
      exact ⟨[], r, rest, y, rfl, hr0, hy, hys⟩
    · obtain ⟨pre, r', post, y, rfl, hy⟩ := ih hrest
      exact ⟨r :: pre, r', post, y, rfl, hy⟩

theorem Faithful.replayed (cfg : Config) (h : Faithful s) (hsrc : src ≠ 0)
    (hnot : ¬ Reaches s.net.rpl src) :
    ∃ p s', p.src = src ∧ replayStep cfg s (.pdu p) = some s' ∧ ¬ NoReplay s'.accepted := by
  obtain ⟨pre, r, _, y, hrpl, hr, hy, rfl⟩ := exists_hole hnot
  have hyr : y ∈ s.net.rpl := by simp [hrpl, hy]
  obtain ⟨q, hq, hqsrc, hqiv, -⟩ := h.accepted y hyr hsrc
  have hcur : q.Current s.net := by
    unfold Pdu.Current
    rw [hqiv, Rpl.iv]
    cases hold : y.oldIv with
    | false => simp
    | true =>
      simp only [Bool.toNat_true]
      omega
  have hpre : ∀ x ∈ pre, x.src ≠ (q.rx s.net).src := by
    intro x hx hxs
    have hxy := hxs.trans hqsrc
    have hu := h.unique
    rw [hrpl, pairwise_append] at hu
    exact hsrc (hxy ▸ hu.2.2 x hx y (mem_cons_of_mem _ hy) hxy)
  have hnew : (isReplay (q.rx s.net) s.net.rpl).1 = false := by
    rw [hrpl]
    exact isReplay_of_hole hr hpre
  refine ⟨q, _, hqsrc, by rw [replayStep, if_pos hcur], fun hno => ?_⟩
  simp only [hnew] at hno
  exact BitVec.lt_irrefl _ ((pairwise_append.mp hno).2.2 q hq q (by simp) rfl rfl)

theorem faithful_of_empty {n : Node} (hrpl : ∀ r ∈ n.net.rpl, r = emptySlot)
    (haccepted : n.accepted = []) : Faithful n := by
  refine ⟨by simp [haccepted], fun r hr => ?_, by simp [haccepted], fun r hr hne => ?_, ?_,
    by simp [haccepted, NoReplay]⟩
  · exact hrpl r hr ▸ nofun
  · exact absurd (hrpl r hr ▸ rfl) hne
  · exact pairwise_of_forall_mem_list fun r hr _ _ _ => hrpl r hr ▸ rfl

/-- In every run in which no PDU is received while an empty slot stands in front of the slot of its
source, no replay is accepted; and from there on none of a source is, exactly if this holds for
it. -/
theorem noReplay_iff {start : Node} (hrpl : ∀ r ∈ start.net.rpl, r = emptySlot)
    (haccepted : start.accepted = []) (hrun : GuardedRun (replayStep cfg) ReachesSource start s) :
    NoReplay s.accepted ∧ ∀ src, src ≠ 0 →
      ((∀ p s', p.src = src → replayStep cfg s (.pdu p) = some s' → NoReplay s'.accepted) ↔
        Reaches s.net.rpl src) := by
  have hstart := faithful_of_empty hrpl haccepted
  have h : Faithful s := hrun.invariant (fun _ _ _ => faithful_step) hstart
  refine ⟨h.noReplay, fun src hsrc => ⟨fun hall => ?_, fun hreach p s' hp hstep => ?_⟩⟩
  · by_contra hnot
    obtain ⟨p, s', hp, hstep, hreplay⟩ := h.replayed cfg hsrc hnot
    exact hreplay (hall p s' hp hstep)
  · subst hp
    exact (faithful_step (a := .pdu p) h hreach hstep).noReplay

def twoSlots : Node := ⟨⟨5#32, 0, false, false, false, 0, [emptySlot, emptySlot]⟩, []⟩

def fromFirst (iv : BitVec 32) (seq : Seq) : Pdu := ⟨1, by decide, iv, seq⟩

def fromSecond (iv : BitVec 32) (seq : Seq) : Pdu := ⟨2, by decide, iv, seq⟩

def afterFirst : Node := (replayStep ⟨false⟩ twoSlots (.pdu (fromFirst 5#32 1))).getD twoSlots

theorem noReplay_afterFirst : NoReplay afterFirst.accepted ∧ ∀ src, src ≠ 0 →
    ((∀ p s', p.src = src → replayStep ⟨false⟩ afterFirst (.pdu p) = some s' →
        NoReplay s'.accepted) ↔ Reaches afterFirst.net.rpl src) := by
  have hrun : GuardedRun (replayStep ⟨false⟩) ReachesSource twoSlots afterFirst := by
    refine .single ⟨.pdu (fromFirst 5#32 1), ?_, rfl⟩
    show Reaches twoSlots.net.rpl 1
    decide
  exact noReplay_iff (by simp [twoSlots]) rfl hrun

/-- The slot of the first source is cleared by the second update, and the last PDU of the second
source is accepted once more. -/
theorem second_replayed : ∃ s', [ReplayAct.pdu (fromFirst 5#32 1), .pdu (fromSecond 5#32 1),
    .ivUpdate 6#32 true 400000000 false, .pdu (fromSecond 6#32 7),
    .ivUpdate 6#32 false 800000000 false, .ivUpdate 7#32 true 1200000000 false,
    .pdu (fromSecond 6#32 7)].foldlM (replayStep ⟨false⟩) twoSlots = some s' ∧
      s'.accepted = [fromFirst 5#32 1, fromSecond 5#32 1, fromSecond 6#32 7, fromSecond 6#32 7] ∧
        ¬ NoReplay s'.accepted := by
  refine ⟨_, rfl, rfl, fun h => ?_⟩
  unfold NoReplay at h
  revert h
  decide

end Zephyr.Mesh
