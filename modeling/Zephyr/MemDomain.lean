import Zephyr.Run

/-! The partitions of a memory domain, `kernel/mem_domain.c`. A slot of size zero is free; of the
functions only `k_mem_domain_add_partition` refuses a partition of that size. -/

namespace Zephyr.MemDomain

open List

structure Partition where
  start : BitVec 32
  size : BitVec 32
  attr : BitVec 32
deriving DecidableEq

def Partition.free : Partition := ⟨0, 0, 0⟩

/-- `max_partitions`, and the attributes that `ensure_w_xor_x` lets pass. -/
structure Arch where
  maxPartitions : BitVec 8
  ensureWXorX : BitVec 32 → Bool

/-- A domain with its first `max_partitions` slots; no function looks at the others. -/
structure Domain where
  numPartitions : BitVec 32
  partitions : List Partition
deriving DecidableEq

variable (arch : Arch)

def kMemDomainInit (parts : List Partition) : Option Domain :=
  if parts.length ≤ arch.maxPartitions.toNat ∧ parts.all (arch.ensureWXorX ·.attr) then
    some ⟨.ofNat 32 parts.length,
      parts ++ .replicate (arch.maxPartitions.toNat - parts.length) .free⟩
  else none

section

variable (domain : Domain)

def kMemDomainAddPartition (part : Partition) : Option Domain :=
  let pIdx := domain.partitions.findIdx (·.size = 0)
  if part.start < part.start + part.size ∧ arch.ensureWXorX part.attr ∧
      pIdx < domain.partitions.length then
    some ⟨domain.numPartitions + 1, domain.partitions.set pIdx part⟩
  else none

def kMemDomainRemovePartition (part : Partition) : Option Domain :=
  let pIdx := domain.partitions.findIdx fun p => p.start = part.start ∧ p.size = part.size
  if pIdx < domain.partitions.length then
    some ⟨domain.numPartitions - 1, domain.partitions.set pIdx .free⟩
  else none

inductive Call where
  | init (parts : List Partition)
  | addPartition (part : Partition)
  | removePartition (part : Partition)

def step : Call → Option Domain
  | .init parts => kMemDomainInit arch parts
  | .addPartition part => kMemDomainAddPartition arch domain part
  | .removePartition part => kMemDomainRemovePartition domain part

def used : Nat := domain.partitions.countP (·.size ≠ 0)

def Counted : Prop := domain.numPartitions.toNat = used domain

def Right (call : Call) (domain' : Domain) : Prop :=
  Counted domain' ∧ match call with
    | .init _ => True
    | .addPartition part => ∃ i p, domain.partitions[i]? = some p ∧ p.size = 0 ∧
        domain'.partitions = domain.partitions.set i part
    | .removePartition _ => ∃ i p, domain.partitions[i]? = some p ∧ p.size ≠ 0 ∧
        domain'.partitions = domain.partitions.set i .free

end

def Sized : Call → Prop
  | .init parts => ∀ p ∈ parts, p.size ≠ 0
  | .addPartition _ => True
  | .removePartition part => part.size ≠ 0

instance (call : Call) : Decidable (Sized call) := by
  cases call <;> unfold Sized <;> infer_instance

variable {arch} {domain domain' : Domain} {parts : List Partition} {part : Partition}

structure Good (arch : Arch) (domain : Domain) : Prop where
  counted : Counted domain
  slots : domain.partitions.length = arch.maxPartitions.toNat

theorem Good.num_lt (h : Good arch domain) : domain.numPartitions.toNat < 256 := by
  have hle : used domain ≤ domain.partitions.length := countP_le_length
  have hslots := h.slots
  have hcounted : domain.numPartitions.toNat = used domain := h.counted
  omega

theorem init_spec (hinit : kMemDomainInit arch parts = some domain') :
    domain'.partitions.length = arch.maxPartitions.toNat ∧
      (Counted domain' ↔ ∀ p ∈ parts, p.size ≠ 0) := by
  unfold kMemDomainInit at hinit
  split_ifs at hinit with hok
  cases hinit
  have hnum : parts.length < 2 ^ 32 := by omega
  refine ⟨?_, ?_⟩
  · rw [length_append, length_replicate]
    omega
  · simp only [Counted, used, countP_append, countP_replicate, BitVec.toNat_ofNat,
      Nat.mod_eq_of_lt hnum]
    rw [eq_comm]
    simp [Partition.free]

theorem used_set {i : Nat} {p : Partition} (hp : domain.partitions[i]? = some p) (num : BitVec 32)
    (q : Partition) : used ⟨num, domain.partitions.set i q⟩ =
      used domain - (if p.size ≠ 0 then 1 else 0) + if q.size ≠ 0 then 1 else 0 := by
  obtain ⟨hi, rfl⟩ := List.getElem?_eq_some_iff.mp hp
  simp only [used]
  rw [countP_set hi]
  simp

theorem exists_slot {q : Partition → Bool}
    (hi : domain.partitions.findIdx q < domain.partitions.length) :
    ∃ p ∈ domain.partitions, domain.partitions[domain.partitions.findIdx q]? = some p ∧ q p :=
  ⟨_, getElem_mem hi, getElem?_eq_getElem hi, findIdx_getElem⟩

theorem add_spec (h : Good arch domain)
    (hadd : kMemDomainAddPartition arch domain part = some domain') :
    Right domain (.addPartition part) domain' ∧
      domain'.partitions.length = arch.maxPartitions.toNat := by
  dsimp only [kMemDomainAddPartition] at hadd
  split_ifs at hadd with hok
  obtain ⟨hsize, -, hi⟩ := hok
  cases hadd
  obtain ⟨p, -, hslot, hfree⟩ := exists_slot hi
  rw [decide_eq_true_eq] at hfree
  have hpart : part.size ≠ 0 := by
    intro hzero
    bv_omega
  have hnum := h.num_lt
  have hold : domain.numPartitions.toNat = used domain := h.counted
  refine ⟨⟨?_, _, p, hslot, hfree, rfl⟩, ?_⟩
  · rw [Counted, used_set hslot, if_neg (not_not.mpr hfree), if_pos hpart]
    bv_omega
  · rw [length_set]
    exact h.slots

theorem remove_spec (h : Good arch domain)
    (hremove : kMemDomainRemovePartition domain part = some domain') :
    (Right domain (.removePartition part) domain' ↔ part.size ≠ 0) ∧
      domain'.partitions.length = arch.maxPartitions.toNat := by
  dsimp only [kMemDomainRemovePartition] at hremove
  split_ifs at hremove with hi
  cases hremove
  obtain ⟨p, hmem, hslot, hmatch⟩ := exists_slot hi
  obtain ⟨-, hsize⟩ := of_decide_eq_true hmatch
  have hold : domain.numPartitions.toNat = used domain := h.counted
  have hfree : ¬ Partition.free.size ≠ 0 := not_not.mpr rfl
  refine ⟨⟨?_, ?_⟩, ?_⟩
  · -- a free slot that matches leaves the number of used slots as it was
    rintro ⟨hcounted, -⟩ hzero
    rw [Counted, used_set hslot, hsize, if_neg (not_not.mpr hzero), if_neg hfree] at hcounted
    bv_omega
  · intro hpart
    have hused : 0 < used domain :=
      countP_pos_iff.mpr ⟨p, hmem, by simpa [hsize] using hpart⟩
    refine ⟨?_, _, p, hslot, hsize ▸ hpart, rfl⟩
    rw [Counted, used_set hslot, hsize, if_pos hpart, if_neg hfree]
    bv_omega
  · rw [length_set]
    exact h.slots

theorem Good.step_iff (h : Good arch domain) {call : Call}
    (hstep : step arch domain call = some domain') :
    (Right domain call domain' ↔ Sized call) ∧ (Sized call → Good arch domain') := by
  cases call with
  | init parts =>
    obtain ⟨hslots, hiff⟩ := init_spec hstep
    exact ⟨(and_iff_left trivial).trans hiff, fun hsized => ⟨hiff.mpr hsized, hslots⟩⟩
  | addPartition part =>
    obtain ⟨hright, hslots⟩ := add_spec h hstep
    exact ⟨iff_of_true hright trivial, fun _ => ⟨hright.1, hslots⟩⟩
  | removePartition part =>
    obtain ⟨hiff, hslots⟩ := remove_spec h hstep
    exact ⟨hiff, fun hsized => ⟨(hiff.mpr hsized).1, hslots⟩⟩

/-- The count is right in every run in which no partition of size zero is passed to
`k_mem_domain_init` or `k_mem_domain_remove_partition`, and there a call does what it owes exactly
when it keeps to that. -/
theorem partitions_counted_iff (hinit : kMemDomainInit arch parts = some domain)
    (hsized : ∀ p ∈ parts, p.size ≠ 0)
    (hrun : GuardedRun (step arch) (fun _ call => Sized call) domain domain') :
    Counted domain' ∧ ∀ call after, step arch domain' call = some after →
      (Right domain' call after ↔ Sized call) := by
  obtain ⟨hslots, hiff⟩ := init_spec hinit
  have hgood : Good arch domain' :=
    hrun.invariant (P := Good arch) (fun _ _ _ hd hcall hstep => (hd.step_iff hstep).2 hcall)
      ⟨hiff.mpr hsized, hslots⟩
  exact ⟨hgood.counted, fun _ _ hstep => (hgood.step_iff hstep).1⟩

def fourSlots : Arch := ⟨4, fun _ => true⟩

def ram : Partition := ⟨0x20000000, 0x1000, 3⟩

theorem ram_counted : Right ⟨1, [ram, .free, .free, .free]⟩ (.removePartition ram)
    ⟨0, [.free, .free, .free, .free]⟩ :=
  ((@partitions_counted_iff fourSlots _ _ [ram] rfl (by decide) .refl).2
    (.removePartition ram) _ rfl).mpr (by decide)

/-- The unused slots of an empty domain are found, and the count wraps. -/
theorem free_slot_removed : (kMemDomainInit fourSlots []).bind
      (kMemDomainRemovePartition · ⟨0, 0, 0⟩) =
    some ⟨0xFFFFFFFF, [.free, .free, .free, .free]⟩ := by
  decide

end Zephyr.MemDomain
