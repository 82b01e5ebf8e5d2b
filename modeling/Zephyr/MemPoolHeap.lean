import Zephyr.MemPoolCalls

/-! `k_malloc`, `k_calloc` and `k_free` of `kernel/mempool.c`. A block of the heap starts with its own
descriptor, and neither the product nor the sum that make its size is checked. -/

namespace Zephyr.MemPool

open Function

/-- The 8 bytes of `struct k_mem_block`. -/
structure KMemBlock where
  data : Nat
  pool : Nat
  level : Nat
  block : Nat
deriving DecidableEq

def heapMemPool (buf y : Nat) : KMemPool := kMemPoolDefine buf 64 (64 * 4 ^ y) 1

def kMallocSize (size : Nat) : Nat := (size + 8) % 2 ^ 32

def kCallocSize (nmemb size : Nat) : Nat := kMallocSize (nmemb * size % 2 ^ 32)

/-- What `pool_alloc` leaves in the descriptor, whose `id` is a bit field. -/
def allocated (p : KMemPool) (pool allocL blk : Nat) : KMemBlock :=
  ⟨blk, pool % 2 ^ 8, allocL % 2 ^ 4, blockNum p blk (lsizes p allocL) % 2 ^ 20⟩

/-- The end of `k_malloc`, with the descriptors in memory and the pointer that it returns. -/
def kMallocEnd (mem : Nat → KMemBlock) (block : KMemBlock) : (Nat → KMemBlock) × Nat :=
  (update mem block.data block, block.data + 8)

/-- The descriptor that `k_free` passes to `k_mem_pool_free`. -/
def kFree (mem : Nat → KMemBlock) (ptr : Nat) : KMemBlock := mem (ptr - 8)

/-- The block holds its descriptor and the bytes asked for, and `k_free` of the pointer frees it. -/
def HeapBlock (p : KMemPool) (pool : Nat) (mem : Nat → KMemBlock) (allocL blk bytes : Nat) : Prop :=
  let (mem, ptr) := kMallocEnd mem (allocated p pool allocL blk)
  8 + bytes ≤ lsizes p allocL ∧
    ∃ bn, blk = blockPtr p (lsizes p allocL) bn ∧ kFree mem ptr = ⟨blk, pool, allocL, bn⟩

def Phase.Large (p : KMemPool) : Phase → Prop
  | .scan r _ (some allocL) _ | .take r allocL _ | .split r allocL _ _ => r.size ≤ lsizes p allocL
  | _ => True

variable {T : Type} [DecidableEq T] {p : KMemPool} {hz : Nat} {prio : T → Int} {s s' : Sys T}
  {e : Event T}

theorem large_update {phase : T → Phase} (h : ∀ u, (phase u).Large p) (t : T) {ph : Phase}
    (hph : ph.Large p) (u : T) : (update phase t ph u).Large p := by
  rcases eq_or_ne u t with rfl | hu
  · simpa using hph
  · simpa [hu] using h u

theorem large_next (h : ∀ t, (s.phase t).Large p) (hn : next p hz prio s e = some s') :
    ∀ u, (s'.phase u).Large p := by
  cases ran_of_next hn with
  | alloc t size timeout ht => exact large_update h t trivial
  | free t level bn ht => exact large_update h t trivial
  | scan t r i allocL freeL ht =>
    have hl := h t
    rw [ht] at hl
    unfold poolScan
    by_cases hc : i < p.nLevels ∧ ¬ lsizes p i < r.size
    · rw [if_pos hc]
      exact large_update h t (Nat.not_lt.mp hc.2)
    · rw [if_neg hc]
      split
      · exact large_update h t hl
      · split_ifs <;> exact large_update h t trivial
  | take t r allocL freeL ht =>
    have hl := h t
    rw [ht] at hl
    unfold poolTake
    split
    · exact large_update h t hl
    · exact large_update h t trivial
  | split t r allocL fromL blk ht =>
    have hl := h t
    rw [ht] at hl
    unfold poolBreak
    split_ifs
    · exact large_update h t hl
    · exact large_update h t trivial
  | pend t r ht => exact large_update h t trivial
  | retry t r ht =>
    unfold allocRetry
    dsimp only
    split_ifs <;> exact large_update h t trivial
  | merge t level bn ht =>
    unfold poolFree
    rcases freeBlock p s.store.pool level bn with ⟨_, _ | ⟨l, b⟩⟩ <;>
      exact large_update h t trivial
  | wake t ht =>
    refine large_update (fun u => ?_) t trivial
    have hu := h u
    dsimp only
    split_ifs
    · cases hph : s.phase u <;> rw [hph] at hu <;> exact hu
    · exact hu
  | expire t r ht => exact large_update h t trivial
  | tick => exact h

/-- A block that `k_malloc` or `k_calloc` is about to return is right exactly when the size with the
descriptor is less than `2 ^ 32` and the index of the heap fits the descriptor. -/
theorem heap_block_right_iff {buf y : Nat} (hy : y ≤ 10) {links : Links Node}
    (hrun : GuardedRun (next (heapMemPool buf y) hz prio) Allowed
      (initSys (heapMemPool buf y) links) s) {t : T} {r : Request} {allocL fromL blk : Nat}
    (ht : s.phase t = .split r allocL fromL blk) (hdone : ¬ fromL < allocL) (pool : Nat)
    (mem : Nat → KMemBlock) (nmemb size : Nat) :
    (r.size = kMallocSize size → (HeapBlock (heapMemPool buf y) pool mem allocL blk size ↔
      8 + size < 2 ^ 32 ∧ pool < 2 ^ 8)) ∧
    (r.size = kCallocSize nmemb size →
      (HeapBlock (heapMemPool buf y) pool mem allocL blk (nmemb * size) ↔
        8 + nmemb * size < 2 ^ 32 ∧ pool < 2 ^ 8)) := by
  have hp : ExactPool (heapMemPool buf y) := kMemPoolDefine_exact buf (by decide) (by decide) (by
    have : 1 ≤ 4 ^ y := Nat.one_le_pow _ _ (by decide)
    simp only [mpoolMinblk]
    omega)
  obtain ⟨hsound, hlarge⟩ : s.Sound (heapMemPool buf y) ∧
      ∀ t, (s.phase t).Large (heapMemPool buf y) := by
    refine hrun.invariant (P := fun s => s.Sound (heapMemPool buf y) ∧
      ∀ t, (s.phase t).Large (heapMemPool buf y)) ?_
      ⟨sound_init hp links, fun _ => trivial⟩
    rintro s e _ ⟨hs, hl⟩ hok hn
    exact ⟨hs.next hp hok hn, large_next hl hn⟩
  have hfits := hsound.fits t
  have hsize := hlarge t
  rw [ht] at hfits hsize
  obtain ⟨hle, hlt, hblk⟩ := hfits
  obtain rfl : fromL = allocL := by omega
  obtain ⟨_, hi⟩ := hsound.inv
  have hvalid := hi.held _ (hsound.holders.mem t (fromL, _) (by rw [ht]; rfl))
  have hlevel := (of_lt_mpoolLvls hlt).1
  have hbn : blockNum (heapMemPool buf y) blk (lsizes (heapMemPool buf y) fromL) < 2 ^ 20 := by
    have hpow : 4 ^ fromL ≤ 4 ^ 10 := Nat.pow_le_pow_right (by decide) (by omega)
    have hb := hvalid.2
    simp only [nblocks, heapMemPool, kMemPoolDefine] at hb
    exact hb.trans_le (by omega)
  have hmax : lsizes (heapMemPool buf y) fromL < 2 ^ 32 := by
    have hpow : 4 ^ y ≤ 4 ^ 10 := Nat.pow_le_pow_right (by decide) hy
    have hle : lsizes (heapMemPool buf y) fromL ≤ 64 * 4 ^ y :=
      (Nat.le_mul_of_pos_right _ (Nat.pow_pos (by decide))).trans_eq (hp.lsizes_mul hlt)
    omega
  have hright : ∀ bytes, r.size = (bytes + 8) % 2 ^ 32 →
      (HeapBlock (heapMemPool buf y) pool mem fromL blk bytes ↔
        8 + bytes < 2 ^ 32 ∧ pool < 2 ^ 8) := by
    intro bytes hb
    have hfree : kFree (kMallocEnd mem (allocated (heapMemPool buf y) pool fromL blk)).1
        (kMallocEnd mem (allocated (heapMemPool buf y) pool fromL blk)).2 =
        allocated (heapMemPool buf y) pool fromL blk := by
      simp [kFree, kMallocEnd]
    unfold HeapBlock
    dsimp only
    rw [hfree, allocated, Nat.mod_eq_of_lt (show fromL < 2 ^ 4 by omega), Nat.mod_eq_of_lt hbn]
    constructor
    · rintro ⟨hle, _, -, he⟩
      have hpool : pool % 2 ^ 8 = pool := congrArg KMemBlock.pool he
      omega
    · rintro ⟨hlt, hpool⟩
      refine ⟨?_, _, hblk, by rw [Nat.mod_eq_of_lt hpool]⟩
      have : r.size ≤ lsizes (heapMemPool buf y) fromL := hsize
      omega
  refine ⟨hright size, fun hs => hright (nmemb * size) (hs.trans ?_)⟩
  simp [kCallocSize, kMallocSize]

/-- A heap of 256 bytes gives one of its blocks of 64 bytes to `k_malloc(40)`. -/
theorem heap_block_right_forty : ∃ s : Sys Unit, s.phase () = .split ⟨48, 0, 0, 0⟩ 1 1 1024 ∧
    HeapBlock (heapMemPool 1024 1) 0 (fun _ => ⟨0, 0, 0, 0⟩) 1 1024 40 := by
  obtain ⟨s, hrun, ht⟩ : ∃ s : Sys Unit, GuardedRun (next (heapMemPool 1024 1) 100 fun _ => 0)
      Allowed (initSys (heapMemPool 1024 1) ⟨id, id⟩) s ∧
      s.phase () = .split ⟨48, 0, 0, 0⟩ 1 1 1024 :=
    ⟨_, .of_foldlM _ _ [.alloc () (kMallocSize 40) kNoWait, .run (), .run (), .run (), .run (),
      .run ()] rfl, rfl⟩
  exact ⟨s, ht, ((heap_block_right_iff (by decide) hrun ht (by decide) 0 _ 0 40).1 rfl).mpr
    (by decide)⟩

/-- `k_calloc(2 ^ 16, 2 ^ 16)` gets a block of 64 bytes, and so does `k_malloc(2 ^ 32 - 8)`. -/
theorem heap_size_wraps : (∃ s : Sys Unit,
    [Event.alloc () (kCallocSize (2 ^ 16) (2 ^ 16)) kNoWait, .run (), .run (), .run (), .run (),
      .run ()].foldlM
      (fun s e => if Allowed s e then next (heapMemPool 1024 1) 100 (fun _ => 0) s e else none)
      (initSys (heapMemPool 1024 1) ⟨id, id⟩) = some s ∧
    s.phase () = .split ⟨8, 0, 0, 0⟩ 1 1 1024) ∧ kMallocSize (2 ^ 32 - 8) = 0 ∧
    ∀ mem, ¬ HeapBlock (heapMemPool 1024 1) 0 mem 1 1024 (2 ^ 16 * 2 ^ 16) := by
  refine ⟨⟨_, rfl, rfl⟩, rfl, fun mem h => absurd h.1 (by decide)⟩

end Zephyr.MemPool
