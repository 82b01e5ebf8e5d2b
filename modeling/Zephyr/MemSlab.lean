import Zephyr.Run
import Zephyr.Slist
import Zephyr.WaitQ

/-! A memory slab of `kernel/mem_slab.c`. A freed block goes to the first thread that waits, without
a change of the counter; a thread whose timeout has expired no longer counts as one. -/

namespace Zephyr.MemSlab

open Function List

/-- The fields of `struct k_mem_slab`, the pointer at the start of each block, and the blocks that
are allocated. -/
structure KMemSlab (T : Type) where
  numBlocks : Nat
  blockSize : Nat
  buffer : Nat
  freeList : Option Nat
  next : Nat → Option Nat
  numUsed : Nat
  waitQ : TimedQ T
  held : List Nat

inductive Act (T : Type) where
  | alloc (t : T) (wait : Bool)
  | free (mem : Nat)
  | tick (e : Tick T)

variable {T : Type}

def createRounds (slab : KMemSlab T) : Nat → KMemSlab T × Nat
  | 0 => ({ slab with freeList := none }, slab.buffer)
  | j + 1 =>
    let (s, p) := createRounds slab j
    ({ s with next := update s.next p s.freeList, freeList := some p }, p + s.blockSize)

def createFreeList (slab : KMemSlab T) : KMemSlab T := (createRounds slab slab.numBlocks).1

def kMemSlabInit (buffer blockSize numBlocks : Nat) (next : Nat → Option Nat) : KMemSlab T :=
  createFreeList ⟨numBlocks, blockSize, buffer, none, next, 0, .empty, []⟩

def kMemSlabAlloc (prio : T → Int) (slab : KMemSlab T) (t : T) (wait : Bool) : KMemSlab T :=
  match slab.freeList with
  | some mem =>
    { slab with
      freeList := slab.next mem
      numUsed := slab.numUsed + 1
      held := mem :: slab.held }
  | none => if wait then { slab with waitQ := slab.waitQ.pend prio t } else slab

variable [DecidableEq T]

def kMemSlabFree (slab : KMemSlab T) (mem : Nat) : KMemSlab T :=
  match slab.waitQ.unpendFirst with
  | some (_, waitQ) => { slab with waitQ }
  | none =>
    { slab with
      next := update slab.next mem slab.freeList
      freeList := some mem
      numUsed := slab.numUsed - 1
      held := slab.held.erase mem }

def step (prio : T → Int) (slab : KMemSlab T) : Act T → Option (KMemSlab T)
  | .alloc t wait => if t ∈ slab.waitQ.waitQ then none else some (kMemSlabAlloc prio slab t wait)
  | .free mem => if mem ∈ slab.held then some (kMemSlabFree slab mem) else none
  | .tick e => (slab.waitQ.tick e).map fun waitQ => { slab with waitQ }

def blocks (buffer blockSize numBlocks : Nat) : List Nat :=
  (range numBlocks).map (buffer + blockSize * ·)

structure Books (bs : List Nat) (slab : KMemSlab T) (free : List Nat) : Prop where
  list : Seg slab.next slab.freeList free none
  count : slab.numUsed + free.length = bs.length
  all : free ++ slab.held ~ bs

structure Right (bs : List Nat) (slab : KMemSlab T) : Prop where
  books : ∃ free, Books bs slab free
  waits : ∀ t, slab.waitQ.Waiting t → slab.freeList = none

structure Inv (bs : List Nat) (slab : KMemSlab T) : Prop extends Right bs slab where
  calm : slab.waitQ.Calm

variable {prio : T → Int} {slab slab' : KMemSlab T} {bs : List Nat} {mem : Nat} {blockSize : Nat}

theorem nodup_blocks (buffer numBlocks : Nat) (hpos : 0 < blockSize) :
    (blocks buffer blockSize numBlocks).Nodup :=
  nodup_range.map fun _ _ h => Nat.eq_of_mul_eq_mul_left hpos (Nat.add_left_cancel h)

section

omit [DecidableEq T]

theorem createRounds_spec (slab : KMemSlab T) (hpos : 0 < slab.blockSize) (j : Nat) :
    ∃ next freeList free, createRounds slab j =
        ({ slab with next, freeList }, slab.buffer + slab.blockSize * j) ∧
      Seg next freeList free none ∧ free ~ blocks slab.buffer slab.blockSize j := by
  induction j with
  | zero => exact ⟨slab.next, none, [], rfl, rfl, .refl _⟩
  | succ j ih =>
    obtain ⟨_, _, free, heq, hseg, hperm⟩ := ih
    have hall : (slab.buffer + slab.blockSize * j) :: free ~
        blocks slab.buffer slab.blockSize (j + 1) := by
      rw [blocks, range_succ, map_append]
      exact (hperm.cons _).trans (perm_append_singleton _ _).symm
    have hnew := (hall.nodup_iff.mpr (nodup_blocks _ _ hpos)).notMem
    refine ⟨_, _, _, ?_, hseg.cons hnew, hall⟩
    rw [createRounds, heq, Nat.mul_succ, ← Nat.add_assoc]

theorem inv_init (buffer numBlocks : Nat) (next : Nat → Option Nat)
    (hpos : 0 < blockSize) : Inv (blocks buffer blockSize numBlocks)
      (kMemSlabInit buffer blockSize numBlocks next : KMemSlab T) := by
  obtain ⟨_, _, free, heq, hseg, hperm⟩ := createRounds_spec
    (⟨numBlocks, blockSize, buffer, none, next, 0, .empty, []⟩ : KMemSlab T) hpos numBlocks
  rw [kMemSlabInit, createFreeList, heq]
  refine ⟨⟨⟨free, hseg, ?_, ?_⟩, nofun⟩, TimedQ.calm_empty⟩
  · exact (Nat.zero_add _).trans hperm.length_eq
  · rwa [append_nil]

theorem Inv.alloc (h : Inv bs slab) (t : T) (wait : Bool) :
    Inv bs (kMemSlabAlloc prio slab t wait) := by
  obtain ⟨free, hlist, hcount, hall⟩ := h.books
  unfold kMemSlabAlloc
  split
  next mem hfree =>
    have hno : ∀ t, ¬ slab.waitQ.Waiting t := fun t ht => nomatch hfree.symm.trans (h.waits t ht)
    rw [hfree] at hlist
    cases free with
    | nil => cases hlist
    | cons b free =>
      obtain ⟨heq, hrest⟩ := hlist
      cases heq
      refine ⟨⟨⟨free, hrest, ?_, perm_middle.trans hall⟩, fun t ht => absurd ht (hno t)⟩, h.calm⟩
      rw [← hcount]
      exact Nat.add_right_comm ..
  next hfree =>
    split_ifs
    · exact ⟨⟨⟨free, hlist, hcount, hall⟩, fun _ _ => hfree⟩, h.calm.pend prio t⟩
    · exact h

end

theorem Inv.free (h : Inv bs slab) (hbs : bs.Nodup) (hmem : mem ∈ slab.held) :
    Inv bs (kMemSlabFree slab mem) := by
  obtain ⟨free, hlist, hcount, hall⟩ := h.books
  unfold kMemSlabFree
  split
  next hfirst =>
    obtain ⟨hcalm, hwaits, -⟩ := h.calm.unpend hfirst
    exact ⟨⟨⟨free, hlist, hcount, hall⟩, fun t ht => h.waits t (hwaits t ht)⟩, hcalm⟩
  next hnone =>
    have hno := TimedQ.not_waiting hnone
    have hnew : mem ∉ free := fun hm =>
      disjoint_of_nodup_append (hall.nodup_iff.mpr hbs) hm hmem
    have hlen := hall.length_eq
    rw [length_append] at hlen
    have hpos := length_pos_of_mem hmem
    refine ⟨⟨⟨mem :: free, hlist.cons hnew, ?_, ?_⟩, fun t ht => absurd ht (hno t)⟩, h.calm⟩
    · rw [length_cons]
      dsimp only
      omega
    · exact (perm_middle.symm.trans ((perm_cons_erase hmem).symm.append_left free)).trans hall

theorem Inv.step (h : Inv bs slab) (hbs : bs.Nodup) {a : Act T}
    (hstep : step prio slab a = some slab') : Inv bs slab' := by
  cases a with
  | alloc t wait =>
    simp only [MemSlab.step] at hstep
    split_ifs at hstep
    exact Option.some.inj hstep ▸ h.alloc t wait
  | free mem =>
    simp only [MemSlab.step] at hstep
    split_ifs at hstep with hmem
    exact Option.some.inj hstep ▸ h.free hbs hmem
  | tick e =>
    obtain ⟨q, htick, rfl⟩ := Option.map_eq_some_iff.mp hstep
    obtain ⟨hcalm, hwaits⟩ := h.calm.tick htick
    obtain ⟨free, hlist, hcount, hall⟩ := h.books
    exact ⟨⟨⟨free, hlist, hcount, hall⟩, fun t ht => h.waits t (hwaits t ht)⟩, hcalm⟩

/-- In every state of every run the free list and the blocks held are the blocks of the buffer,
which are distinct and aligned, and only threads whose timeouts have expired wait while a block is
free. -/
theorem slab_right {buffer blockSize : Nat} (numBlocks : Nat) (next : Nat → Option Nat)
    (hpos : 0 < blockSize) (hsize : 4 ∣ blockSize) (hbuffer : 4 ∣ buffer)
    (hrun : GuardedRun (step prio) (fun _ _ => True)
      (kMemSlabInit buffer blockSize numBlocks next) slab) :
    Right (blocks buffer blockSize numBlocks) slab ∧ (blocks buffer blockSize numBlocks).Nodup ∧
      (blocks buffer blockSize numBlocks).length = numBlocks ∧
      ∀ b ∈ blocks buffer blockSize numBlocks, 4 ∣ b := by
  have hbs := nodup_blocks buffer numBlocks hpos
  have hinv := hrun.invariant (P := Inv (blocks buffer blockSize numBlocks))
    (fun _ _ _ hs _ hstep => hs.step hbs hstep) (inv_init buffer numBlocks next hpos)
  refine ⟨hinv.toRight, hbs, by rw [blocks, length_map, length_range], fun b hb => ?_⟩
  obtain ⟨i, -, rfl⟩ := mem_map.mp hb
  exact Nat.dvd_add hbuffer (Nat.dvd_mul_right_of_dvd hsize i)

def handOver : List (Act Bool) := [.alloc true false, .alloc false true, .free 64]

theorem handOver_right : ∃ slab, handOver.foldlM (step fun _ => 0)
      (kMemSlabInit 64 8 1 fun _ => none) = some slab ∧ Right (blocks 64 8 1) slab :=
  ⟨_, rfl, (slab_right 1 (fun _ => none) (by decide) (by decide) (by decide)
    (.of_foldlM (step fun _ => 0) (fun _ _ => True) handOver rfl)).1⟩

/-- The block is freed after the waiter's timeout has expired and before it is handled. -/
theorem waits_with_free_block : ([Act.alloc true false, .alloc false true, .tick .start,
      .tick (.expire false), .free 64].foldlM (step fun _ => 0)
        (kMemSlabInit 64 8 1 fun _ => none)).map
      (fun slab => (slab.waitQ.waitQ, slab.freeList)) = some ([false], some 64) := by
  rfl

end Zephyr.MemSlab
