import Zephyr.Dlist

/-! The block store of `kernel/mempool.c`. Each level keeps its free blocks on a list whose
nodes lie in the blocks themselves, and one free bit for each block; distinct blocks of an exactly
divided pool have distinct bits. The locked sections `alloc_block`, `break_block` and one round of
`free_block` are the atomic steps. -/

namespace Zephyr.MemPool

open Function

/-- The fields of `struct k_mem_pool` that `K_MEM_POOL_DEFINE` fixes. -/
structure KMemPool where
  buf : Nat
  maxSz : Nat
  nMax : Nat
  nLevels : Nat

/-- `sizeof(sys_dnode_t)`, two pointers of a 32 bit machine. -/
def mpoolMinblk : Nat := 8

def mpoolHaveLvl (max min l : Nat) : Bool := min ≤ max >>> (2 * l)

def mpoolLvls (maxsz minsz : Nat) : Nat :=
  (List.range 16).countP (mpoolHaveLvl maxsz (if mpoolMinblk ≤ minsz then minsz else mpoolMinblk))

def kMemPoolDefine (buf minsz maxsz nmax : Nat) : KMemPool :=
  ⟨buf, maxsz, nmax, mpoolLvls maxsz minsz⟩

inductive Node where
  | freeList (level : Nat)
  | block (addr : Nat)
deriving DecidableEq

/-- Where a word of free bits lies: from the level's own `bits` field on, or in the bitmap
area behind the buffer. -/
inductive WordPtr where
  | inline (level index : Nat)
  | area (index : Nat)
deriving DecidableEq

/-- The fields that change. `bitsP` holds the `bits_p` pointers as word offsets from the end
of the buffer; the `bits` member of the same union is the word `inline level 0`. -/
structure Pool where
  maxInlineLevel : Nat
  bitsP : Nat → Nat
  words : WordPtr → BitVec 32
  links : Links Node

def align4 (n : Nat) : Nat := (n + 3) / 4 * 4

def lsizes (p : KMemPool) : Nat → Nat
  | 0 => align4 p.maxSz
  | i + 1 => align4 (lsizes p i / 4)

variable (p : KMemPool)

def blockPtr (lsz block : Nat) : Nat := p.buf + lsz * block

def blockNum (block sz : Nat) : Nat := (block - p.buf) / sz

variable (links : Links Node) (s : Pool) (level bn : Nat)

def getBitPtr : WordPtr × Nat :=
  (if level ≤ s.maxInlineLevel then .inline level (bn / 32) else .area (s.bitsP level + bn / 32),
    bn % 32)

def setFreeBit : Pool :=
  let (word, bit) := getBitPtr s level bn
  { s with words := update s.words word (s.words word ||| 1#32 <<< bit) }

def clearFreeBit : Pool :=
  let (word, bit) := getBitPtr s level bn
  { s with words := update s.words word (s.words word &&& ~~~(1#32 <<< bit)) }

def partnerBits : BitVec 32 :=
  let (word, bit) := getBitPtr s level bn
  (s.words word >>> (4 * (bit / 4))) &&& 0xf#32

def bufSize : Nat := p.nMax * p.maxSz

def blockFits (block bsz : Nat) : Bool := block + bsz - 1 - p.buf < bufSize p

/-- One round of the first loop of `init_mem_pool`, with the loop's `sz` and `bits`. -/
def initLevel (a : Pool × Nat × Nat) (i : Nat) : Pool × Nat × Nat :=
  let (s, sz, bits) := a
  let nblocks := bufSize p / sz
  let s := { s with links := sysDlistInit s.links (.freeList i) }
  if nblocks < 32 then
    ({ s with maxInlineLevel := i }, align4 (sz / 4), bits)
  else
    ({ s with bitsP := update s.bitsP i bits }, align4 (sz / 4), bits + (nblocks + 31) / 32)

def initBlock (i : Nat) : Pool :=
  let block := blockPtr p p.maxSz i
  setFreeBit { s with links := sysDlistAppend s.links (.freeList 0) (.block block) } 0 i

def zeroPool : Pool := ⟨0, fun _ => 0, fun _ => 0#32, links⟩

def initMemPool : Pool :=
  let s := ((List.range p.nLevels).foldl (initLevel p) (zeroPool links, p.maxSz, 0)).1
  (List.range p.nMax).foldl (initBlock p) s

def allocBlock (l : Nat) : Option Nat × Pool :=
  match sysDlistGet s.links (.freeList l) with
  | (some (.block block), links) =>
    (some block, clearFreeBit { s with links } l (blockNum p block (lsizes p l)))
  | (_, links) => (none, { s with links })

def mergeBlock (s : Pool) (b : Nat) : Pool :=
  let s := clearFreeBit s level b
  let block := blockPtr p (lsizes p level) b
  if b ≠ bn ∧ blockFits p block (lsizes p level) then
    { s with links := sysDlistRemove s.links (.block block) }
  else s

/-- One locked section of `free_block`. When the four partners were merged the caller goes on
with the block returned. -/
def freeBlock : Pool × Option (Nat × Nat) :=
  let s := setFreeBit s level bn
  if level ≠ 0 ∧ partnerBits s level bn = 0xf#32 then
    (((List.range 4).map (bn / 4 * 4 + ·)).foldl (mergeBlock p level bn) s,
      some (level - 1, bn / 4))
  else
    let block := blockPtr p (lsizes p level) bn
    if blockFits p block (lsizes p level) then
      ({ s with links := sysDlistAppend s.links (.freeList level) (.block block) }, none)
    else (s, none)

def splitBlock (l block bn : Nat) (s : Pool) (i : Nat) : Pool :=
  let block2 := lsizes p (l + 1) * i + block
  let s := setFreeBit s (l + 1) (4 * bn + i)
  if blockFits p block2 (lsizes p (l + 1)) then
    { s with links := sysDlistAppend s.links (.freeList (l + 1)) (.block block2) }
  else s

def breakBlock (block l : Nat) : Pool :=
  [1, 2, 3].foldl (splitBlock p l block (blockNum p block (lsizes p l))) s

structure State where
  pool : Pool
  held : List (Nat × Nat)

inductive Step where
  | alloc (level : Nat)
  | split (level bn : Nat)
  | free (level bn : Nat)
deriving DecidableEq

/-- The atomic steps of `pool_alloc` and `k_mem_pool_free`, each on a block its caller holds. -/
def step (s : State) : Step → Option State
  | .alloc level =>
    if level < p.nLevels then
      match allocBlock p s.pool level with
      | (some block, pool) =>
        some ⟨pool, (level, blockNum p block (lsizes p level)) :: s.held⟩
      | (none, pool) => some { s with pool }
    else none
  | .split level bn =>
    if (level, bn) ∈ s.held ∧ level + 1 < p.nLevels then
      let block := blockPtr p (lsizes p level) bn
      some ⟨breakBlock p s.pool block level,
        (level + 1, blockNum p block (lsizes p (level + 1))) :: s.held.erase (level, bn)⟩
    else none
  | .free level bn =>
    if (level, bn) ∈ s.held then
      let (pool, rest) := freeBlock p s.pool level bn
      some ⟨pool, rest.toList ++ s.held.erase (level, bn)⟩
    else none

def initState : State := ⟨initMemPool p links, []⟩

open List BitVec

/-- A pool whose levels divide exactly, with fewer than 32 maximum size blocks. A level exists
only where a block can hold a list node of two pointers. -/
structure ExactPool (p : KMemPool) : Prop where
  nMax_lt : p.nMax < 32
  nLevels_pos : 0 < p.nLevels
  maxSz_dvd : 4 ∣ p.maxSz
  quarter : ∀ i, i + 1 < p.nLevels → lsizes p i = 4 * lsizes p (i + 1)
  minblk : ∀ i < p.nLevels, 8 ≤ lsizes p i

def nblocks (p : KMemPool) (l : Nat) : Nat := p.nMax * 4 ^ l

def Valid (p : KMemPool) (l b : Nat) : Prop := l < p.nLevels ∧ b < nblocks p l

/-- What `init_mem_pool` leaves in `max_inline_level` and the `bits_p` pointers. -/
structure Layout (p : KMemPool) (s : Pool) : Prop where
  inline : ∀ i < p.nLevels, i ≤ s.maxInlineLevel ↔ nblocks p i < 32
  area : ∀ i j, i < j → j < p.nLevels → ¬ nblocks p i < 32 →
    s.bitsP i + (nblocks p i + 31) / 32 ≤ s.bitsP j

def freeBit (s : Pool) (l b : Nat) : Bool :=
  (s.words (getBitPtr s l b).1).getLsbD (getBitPtr s l b).2

variable {p : KMemPool} {s : Pool} {l b l' b' : Nat}

theorem Layout.of_links (hs : Layout p s) (links : Links Node) : Layout p { s with links } :=
  ⟨hs.inline, hs.area⟩

theorem freeBit_links (links : Links Node) : freeBit { s with links } l b = freeBit s l b := rfl

theorem ExactPool.lsizes_zero (hp : ExactPool p) : lsizes p 0 = p.maxSz := by
  have := hp.maxSz_dvd
  simp only [lsizes, align4]
  omega

theorem ExactPool.lsizes_mul (hp : ExactPool p) (hl : l < p.nLevels) :
    lsizes p l * 4 ^ l = p.maxSz := by
  induction l with
  | zero => simpa using hp.lsizes_zero
  | succ l ih => rw [← ih (by omega), hp.quarter l hl]; ring

theorem ExactPool.lsizes_pos (hp : ExactPool p) (hl : l < p.nLevels) : 0 < lsizes p l := by
  have := hp.minblk l hl
  omega

theorem ExactPool.lsizes_nblocks (hp : ExactPool p) (hl : l < p.nLevels) :
    lsizes p l * nblocks p l = bufSize p := by
  rw [nblocks, bufSize, ← hp.lsizes_mul hl]
  ring

theorem nblocks_succ (p : KMemPool) (l : Nat) : nblocks p (l + 1) = 4 * nblocks p l := by
  rw [nblocks, nblocks]
  ring

theorem blockNum_blockPtr {sz : Nat} (hs : 0 < sz) (b : Nat) :
    blockNum p (blockPtr p sz b) sz = b := by
  simp [blockNum, blockPtr, Nat.mul_div_cancel_left b hs]

theorem ExactPool.block_end_le (hp : ExactPool p) (hv : Valid p l b) :
    lsizes p l * b + lsizes p l ≤ bufSize p := by
  rw [← hp.lsizes_nblocks hv.1]
  exact Nat.mul_le_mul_left _ hv.2

theorem ExactPool.fits (hp : ExactPool p) (hv : Valid p l b) :
    blockFits p (blockPtr p (lsizes p l) b) (lsizes p l) = true := by
  have hs := hp.lsizes_pos hv.1
  have he := hp.block_end_le hv
  rw [blockFits, blockPtr, decide_eq_true_eq]
  omega

theorem countP_range_spec {P : Nat → Bool} (hP : ∀ i j, i ≤ j → P j = true → P i = true)
    {n l : Nat} (hl : l < (range n).countP P) : P l = true := by
  by_contra hn
  have hle : (range n).countP P ≤ l := by
    clear hl
    induction n with
    | zero => simp
    | succ n ih =>
      have hln : l ≤ n → ¬ P n = true := fun h hp => hn (hP l n h hp)
      have hlen : (range n).countP P ≤ n := by
        simpa using countP_le_length (p := P) (l := range n)
      rw [range_succ, countP_append, countP_singleton]
      split_ifs with hp
      · have : ¬ l ≤ n := fun h => hln h hp
        omega
      · exact ih
  omega

theorem lsizes_of_pow {y l : Nat} {m : Nat} (hm : 4 ∣ m) (hmax : p.maxSz = m * 4 ^ y) (hl : l ≤ y) :
    lsizes p l = m * 4 ^ (y - l) := by
  have hdvd : ∀ k, 4 ∣ m * 4 ^ k := fun k => hm.mul_right _
  induction l with
  | zero =>
    have := hdvd y
    rw [lsizes, align4, Nat.sub_zero]
    omega
  | succ l ih =>
    have hy : y - l = (y - (l + 1)) + 1 := by omega
    have := hdvd (y - (l + 1))
    rw [lsizes, ih (by omega), hy, pow_succ, ← mul_assoc, align4]
    omega

theorem mpoolHaveLvl_mono {mx mn i j : Nat} (h : i ≤ j) (hj : mpoolHaveLvl mx mn j = true) :
    mpoolHaveLvl mx mn i = true := by
  simp only [mpoolHaveLvl, decide_eq_true_eq, Nat.shiftRight_eq_div_pow] at hj ⊢
  exact hj.trans (Nat.div_le_div_left (Nat.pow_le_pow_right (by decide) (by omega))
    (Nat.two_pow_pos _))

theorem of_lt_mpoolLvls {m y : Nat} (hl : l < mpoolLvls (m * 4 ^ y) m) :
    l ≤ y ∧ 8 ≤ m * 4 ^ (y - l) := by
  have hh := countP_range_spec (fun _ _ => mpoolHaveLvl_mono) hl
  have h4 : 0 < 4 ^ l := Nat.pow_pos (by decide)
  simp only [mpoolHaveLvl, decide_eq_true_eq, Nat.shiftRight_eq_div_pow, pow_mul,
    show (2 ^ 2 : Nat) = 4 from rfl, Nat.le_div_iff_mul_le h4] at hh
  have ht : m ≤ (if mpoolMinblk ≤ m then m else mpoolMinblk) ∧
      8 ≤ (if mpoolMinblk ≤ m then m else mpoolMinblk) := by
    unfold mpoolMinblk
    split_ifs <;> omega
  have hmax : 8 * 4 ^ l ≤ m * 4 ^ y := (Nat.mul_le_mul_right _ ht.2).trans hh
  have hmpos : 0 < m := by
    refine Nat.pos_of_ne_zero fun hm => ?_
    simp [hm] at hmax
  have hly : l ≤ y := by
    have hle : m * 4 ^ l ≤ m * 4 ^ y := (Nat.mul_le_mul_right _ ht.1).trans hh
    exact (Nat.pow_le_pow_iff_right (by decide)).mp (Nat.le_of_mul_le_mul_left hle hmpos)
  refine ⟨hly, Nat.le_of_mul_le_mul_right ?_ h4⟩
  rwa [mul_assoc, ← pow_add, Nat.sub_add_cancel hly]

theorem kMemPoolDefine_exact (buf : Nat) {m y n : Nat} (hm : 4 ∣ m) (hn : n < 32)
    (hmax : mpoolMinblk ≤ m * 4 ^ y) : ExactPool (kMemPoolDefine buf m (m * 4 ^ y) n) := by
  have hsz : ∀ l < mpoolLvls (m * 4 ^ y) m,
      lsizes (kMemPoolDefine buf m (m * 4 ^ y) n) l = m * 4 ^ (y - l) :=
    fun l hl => lsizes_of_pow hm rfl (of_lt_mpoolLvls hl).1
  refine ⟨hn, ?_, ?_, ?_, ?_⟩
  · refine countP_pos_iff.mpr ⟨0, by simp, ?_⟩
    have hle : m ≤ m * 4 ^ y := Nat.le_mul_of_pos_right m (Nat.pow_pos (by decide))
    simp only [mpoolHaveLvl, decide_eq_true_eq]
    split_ifs
    · exact hle
    · exact hmax
  · exact hm.mul_right _
  · intro i hi
    have hy := (of_lt_mpoolLvls hi).1
    rw [hsz i (Nat.lt_of_succ_lt hi), hsz (i + 1) hi, show y - i = y - (i + 1) + 1 by omega]
    ring
  · intro i hi
    rw [hsz i hi]
    exact (of_lt_mpoolLvls hi).2

theorem getBitPtr_inj (hs : Layout p s) (hv : Valid p l b) (hv' : Valid p l' b')
    (h : getBitPtr s l b = getBitPtr s l' b') : l = l' ∧ b = b' := by
  have hl := hs.inline l hv.1
  have hl' := hs.inline l' hv'.1
  have hb := hv.2
  have hb' := hv'.2
  simp only [getBitPtr, Prod.mk.injEq] at h
  obtain ⟨hw, hbit⟩ := h
  split_ifs at hw with h1 h2 h2
  · simp only [WordPtr.inline.injEq] at hw
    omega
  · simp only [WordPtr.area.injEq] at hw
    rcases Nat.lt_trichotomy l l' with hlt | heq | hlt
    · have := hs.area l l' hlt hv'.1 (by tauto)
      omega
    · subst heq
      omega
    · have := hs.area l' l hlt hv.1 (by tauto)
      omega

theorem getLsbD_one_shiftLeft {k i : Nat} (hk : k < 32) :
    (1#32 <<< k).getLsbD i = decide (i = k) := by
  grind

theorem freeBit_setFreeBit (hs : Layout p s) (hv : Valid p l b) (hv' : Valid p l' b') :
    freeBit (setFreeBit s l b) l' b' = (freeBit s l' b' || decide (l' = l ∧ b' = b)) := by
  have hp : getBitPtr (setFreeBit s l b) l' b' = getBitPtr s l' b' := rfl
  have hk : (getBitPtr s l b).2 < 32 := Nat.mod_lt _ (by decide)
  simp only [freeBit, hp]
  by_cases hw : (getBitPtr s l' b').1 = (getBitPtr s l b).1
  · have hinj : (getBitPtr s l' b').2 = (getBitPtr s l b).2 ↔ l' = l ∧ b' = b :=
      ⟨fun hb => getBitPtr_inj hs hv' hv (Prod.ext hw hb), fun hb => by rw [hb.1, hb.2]⟩
    simp only [setFreeBit, hw, update_self, getLsbD_or, getLsbD_one_shiftLeft hk, hinj]
  · have hne : ¬ (l' = l ∧ b' = b) := fun hb => hw (by rw [hb.1, hb.2])
    simp [setFreeBit, update_of_ne hw, hne]

theorem freeBit_clearFreeBit (hs : Layout p s) (hv : Valid p l b) (hv' : Valid p l' b') :
    freeBit (clearFreeBit s l b) l' b' = (freeBit s l' b' && !decide (l' = l ∧ b' = b)) := by
  have hp : getBitPtr (clearFreeBit s l b) l' b' = getBitPtr s l' b' := rfl
  have hk : (getBitPtr s l b).2 < 32 := Nat.mod_lt _ (by decide)
  have hk' : (getBitPtr s l' b').2 < 32 := Nat.mod_lt _ (by decide)
  simp only [freeBit, hp]
  by_cases hw : (getBitPtr s l' b').1 = (getBitPtr s l b).1
  · have hinj : (getBitPtr s l' b').2 = (getBitPtr s l b).2 ↔ l' = l ∧ b' = b :=
      ⟨fun hb => getBitPtr_inj hs hv' hv (Prod.ext hw hb), fun hb => by rw [hb.1, hb.2]⟩
    simp only [clearFreeBit, hw, update_self, getLsbD_and, getLsbD_not,
      getLsbD_one_shiftLeft hk, hinj, hk', decide_true, Bool.true_and]
  · have hne : ¬ (l' = l ∧ b' = b) := fun hb => hw (by rw [hb.1, hb.2])
    simp [clearFreeBit, update_of_ne hw, hne]

theorem and_shift_eq_iff (w : BitVec 32) (k : Nat) :
    (w >>> k) &&& 0xf#32 = 0xf#32 ↔ ∀ i < 4, w.getLsbD (k + i) = true := by
  have hf : ∀ i < 32, (0xf#32).getLsbD i = decide (i < 4) := by decide
  constructor
  · intro h i hi
    have hh := congrArg (fun v => v.getLsbD i) h
    simpa [hf i (by omega), hi] using hh
  · intro h
    apply eq_of_getLsbD_eq
    intro i hi
    rw [getLsbD_and, hf i hi]
    by_cases h4 : i < 4
    · simp [h i h4]
    · simp [h4]

theorem partnerBits_eq_iff : partnerBits s l b = 0xf#32 ↔
    ∀ i < 4, freeBit s l (b / 4 * 4 + i) = true := by
  simp only [partnerBits, and_shift_eq_iff]
  have hp : ∀ i < 4, getBitPtr s l (b / 4 * 4 + i) =
      ((getBitPtr s l b).1, 4 * ((getBitPtr s l b).2 / 4) + i) := by
    intro i hi
    have hd : (b / 4 * 4 + i) / 32 = b / 32 := by omega
    have hm : (b / 4 * 4 + i) % 32 = 4 * (b % 32 / 4) + i := by omega
    simp only [getBitPtr, hd, hm]
  constructor
  · intro h i hi
    simpa only [freeBit, hp i hi] using h i hi
  · intro h i hi
    simpa only [freeBit, hp i hi] using h i hi

end Zephyr.MemPool
