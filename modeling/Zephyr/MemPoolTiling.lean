import Zephyr.MemPool
import Zephyr.Tiling
import Zephyr.Run

/-! The free blocks of a pool as numbers, which the lists and the bits represent alike. They tile the
buffer with the blocks held by callers, through any interleaving of the locked sections. -/

namespace Zephyr.MemPool

open Function List

def blockNode (p : KMemPool) (l b : Nat) : Node := .block (blockPtr p (lsizes p l) b)

def nodesOf (p : KMemPool) (fl : Nat → List Nat) (l : Nat) : List Node := (fl l).map (blockNode p l)

def putBlock (p : KMemPool) (l : Nat) (s : Pool) (b : Nat) : Pool :=
  setFreeBit { s with links := sysDlistAppend s.links (.freeList l) (blockNode p l b) } l b

def takeBlock (p : KMemPool) (l : Nat) (s : Pool) (b : Nat) : Pool :=
  clearFreeBit { s with links := sysDlistRemove s.links (blockNode p l b) } l b

/-- The pool's lists and bits both represent the free blocks `fl`, given by number. -/
structure Store (p : KMemPool) (fl : Nat → List Nat) (s : Pool) : Prop where
  layout : Layout p s
  rings : s.links.Rings {l | l < p.nLevels} Node.freeList (nodesOf p fl)
  valid : ∀ l < p.nLevels, ∀ b ∈ fl l, Valid p l b
  bits : ∀ l b, Valid p l b → (freeBit s l b = true ↔ b ∈ fl l)

variable {p : KMemPool} {fl : Nat → List Nat} {s : Pool} {l b : Nat}

theorem blockNode_inj (hp : ExactPool p) (hl : l < p.nLevels) {b c : Nat}
    (h : blockNode p l b = blockNode p l c) : b = c := by
  have hs := hp.lsizes_pos hl
  simp only [blockNode, blockPtr, Node.block.injEq, Nat.add_left_cancel_iff] at h
  exact Nat.eq_of_mul_eq_mul_left hs h

theorem nodesOf_update (fl : Nat → List Nat) (l : Nat) (xs : List Nat) :
    nodesOf p (update fl l xs) = update (nodesOf p fl) l (xs.map (blockNode p l)) := by
  funext j
  by_cases hj : j = l
  · subst hj
    simp [nodesOf]
  · simp [nodesOf, update_of_ne hj]

theorem Store.nodup (hs : Store p fl s) (hl : l < p.nLevels) : (fl l).Nodup :=
  (hs.rings.ring l hl).nodup.of_map

theorem Store.put (hs : Store p fl s) (hv : Valid p l b)
    (hn : ∀ j < p.nLevels, blockNode p l b ∉ nodesOf p fl j) :
    Store p (update fl l (fl l ++ [b])) (putBlock p l s b) := by
  constructor
  · exact ⟨hs.layout.inline, hs.layout.area⟩
  · rw [nodesOf_update, map_append]
    exact sysDlistAppend_rings hs.rings hv.1 (fun j hj => by simpa [blockNode] using hn j hj)
  · intro j hj c hc
    by_cases hjl : j = l
    · subst hjl
      rw [update_self] at hc
      rcases mem_append.mp hc with hc | hc
      · exact hs.valid j hj c hc
      · exact mem_singleton.mp hc ▸ hv
    · rw [update_of_ne hjl] at hc
      exact hs.valid j hj c hc
  · intro j c hc
    have hb := hs.bits j c hc
    rw [putBlock, freeBit_setFreeBit (hs.layout.of_links _) hv hc, Bool.or_eq_true, freeBit_links, hb]
    by_cases hjl : j = l
    · subst hjl
      simp
    · simp [hjl]

theorem Store.take (hs : Store p fl s) (hl : l < p.nLevels) (hb : b ∈ fl l) :
    Store p (update fl l ((fl l).erase b)) (takeBlock p l s b) := by
  have hnd := hs.nodup hl
  constructor
  · exact ⟨hs.layout.inline, hs.layout.area⟩
  · obtain ⟨u, v, _, hx, he⟩ := exists_erase_eq hb
    rw [nodesOf_update, he, map_append]
    exact sysDlistRemove_rings hs.rings hl (by simp [nodesOf, hx])
  · intro j hj c hc
    by_cases hjl : j = l
    · subst hjl
      rw [update_self] at hc
      exact hs.valid j hj c (mem_of_mem_erase hc)
    · rw [update_of_ne hjl] at hc
      exact hs.valid j hj c hc
  · intro j c hc
    have hh := hs.bits j c hc
    rw [takeBlock, freeBit_clearFreeBit (hs.layout.of_links _) (hs.valid l hl b hb) hc,
      Bool.and_eq_true, freeBit_links, hh]
    by_cases hjl : j = l
    · subst hjl
      simp [hnd.mem_erase_iff, and_comm]
    · simp [hjl]

theorem Store.put_all (hp : ExactPool p) (hs : Store p fl s) (hl : l < p.nLevels) (bs : List Nat)
    (hnd : bs.Nodup) (hv : ∀ b ∈ bs, Valid p l b)
    (hn : ∀ b ∈ bs, ∀ j < p.nLevels, blockNode p l b ∉ nodesOf p fl j) :
    Store p (update fl l (fl l ++ bs)) (bs.foldl (putBlock p l) s) := by
  induction bs generalizing s fl with
  | nil => simpa using hs
  | cons b bs ih =>
    obtain ⟨hb, hnd⟩ := nodup_cons.mp hnd
    have hs' := hs.put (hv b (by simp)) (hn b (by simp))
    have hn' : ∀ c ∈ bs, ∀ j < p.nLevels,
        blockNode p l c ∉ nodesOf p (update fl l (fl l ++ [b])) j := by
      intro c hc j hj
      have hh := hn c (by simp [hc]) j hj
      rw [nodesOf_update]
      by_cases hjl : j = l
      · subst hjl
        rw [update_self, map_append, mem_append, not_or]
        refine ⟨hh, ?_⟩
        intro hm
        have he := blockNode_inj hp hl (mem_singleton.mp hm)
        exact hb (he ▸ hc)
      · rwa [update_of_ne hjl]
    have h := ih hs' hnd (fun c hc => hv c (by simp [hc])) hn'
    simpa [update_idem] using h

variable {xs : List Nat}

theorem mem_update_iff {j c : Nat} : c ∈ update fl l xs j ↔ if j = l then c ∈ xs else c ∈ fl j := by
  by_cases hj : j = l
  · subst hj
    simp
  · simp [hj]

theorem update_subset (h : xs ⊆ fl l) (j : Nat) : update fl l xs j ⊆ fl j := by
  by_cases hj : j = l
  · subst hj
    simpa using h
  · simp [hj]

theorem allocBlock_nil (hs : Store p fl s) (hl : l < p.nLevels) (hf : fl l = []) :
    allocBlock p s l = (none, s) := by
  have hring := hs.rings.ring l hl
  rw [nodesOf, hf] at hring
  rw [allocBlock, sysDlistGet_nil hring]

theorem allocBlock_cons (hp : ExactPool p) (hs : Store p fl s) (hl : l < p.nLevels)
    (hf : fl l = b :: xs) :
    allocBlock p s l = (some (blockPtr p (lsizes p l) b), takeBlock p l s b) := by
  have hring := hs.rings.ring l hl
  rw [nodesOf, hf] at hring
  have hget := sysDlistGet_cons hring
  rw [allocBlock, hget, blockNode]
  simp only [blockNum_blockPtr (hp.lsizes_pos hl)]
  rfl

variable {i : Nat} {bs : List Nat}

theorem splitBlock_eq (hp : ExactPool p) (hl : l + 1 < p.nLevels)
    (hv : Valid p (l + 1) (4 * b + i)) :
    splitBlock p l (blockPtr p (lsizes p l) b) b s i = putBlock p (l + 1) s (4 * b + i) := by
  have hq := hp.quarter l hl
  have ha : lsizes p (l + 1) * i + blockPtr p (lsizes p l) b =
      blockPtr p (lsizes p (l + 1)) (4 * b + i) := by
    rw [blockPtr, blockPtr, hq]
    ring
  rw [splitBlock, ha, hp.fits hv]
  rfl

theorem Valid.child (hv : Valid p l b) (hl : l + 1 < p.nLevels) (hi : i < 4) :
    Valid p (l + 1) (4 * b + i) := by
  refine ⟨hl, ?_⟩
  have := hv.2
  rw [nblocks_succ]
  omega

theorem breakBlock_eq (hp : ExactPool p) (hv : Valid p l b) (hl : l + 1 < p.nLevels) :
    breakBlock p s (blockPtr p (lsizes p l) b) l =
      [4 * b + 1, 4 * b + 2, 4 * b + 3].foldl (putBlock p (l + 1)) s := by
  rw [breakBlock, blockNum_blockPtr (hp.lsizes_pos hv.1)]
  simp only [foldl_cons, foldl_nil]
  rw [splitBlock_eq hp hl (hv.child hl (by decide)), splitBlock_eq hp hl (hv.child hl (by decide)),
    splitBlock_eq hp hl (hv.child hl (by decide))]

theorem Valid.parent (hv : Valid p (l + 1) b) : Valid p l (b / 4) := by
  have h1 := hv.1
  have h2 := hv.2
  rw [nblocks_succ] at h2
  exact ⟨by omega, by omega⟩

theorem Valid.partner (hv : Valid p (l + 1) b) (hi : i < 4) : Valid p (l + 1) (b / 4 * 4 + i) := by
  rw [Nat.mul_comm]
  exact hv.parent.child hv.1 hi

theorem mergeBlock_layout (hs : Layout p s) (c : Nat) : Layout p (mergeBlock p l b s c) := by
  unfold mergeBlock
  dsimp only
  split_ifs
  · exact ⟨hs.inline, hs.area⟩
  · exact ⟨hs.inline, hs.area⟩

theorem freeBit_mergeBlock (hs : Layout p s) {c j d : Nat} (hc : Valid p l c) (hd : Valid p j d) :
    freeBit (mergeBlock p l b s c) j d = (freeBit s j d && !decide (j = l ∧ d = c)) := by
  rw [← freeBit_clearFreeBit hs hc hd]
  unfold mergeBlock
  dsimp only
  split_ifs
  · rfl
  · rfl

theorem mergeBlock_links (hp : ExactPool p) {c : Nat} (hc : Valid p l c) :
    (mergeBlock p l b s c).links =
      if c = b then s.links else sysDlistRemove s.links (blockNode p l c) := by
  rw [mergeBlock, hp.fits hc]
  by_cases hcb : c = b
  · simp only [hcb, ne_eq]
    rfl
  · simp only [hcb, ne_eq]
    rfl

theorem mergeAll_layout (hs : Layout p s) (bs : List Nat) :
    Layout p (bs.foldl (mergeBlock p l b) s) := by
  induction bs generalizing s with
  | nil => exact hs
  | cons c bs ih => exact ih (mergeBlock_layout hs c)

theorem freeBit_mergeAll (hs : Layout p s) (hb : ∀ c ∈ bs, Valid p l c) {j d : Nat}
    (hd : Valid p j d) : freeBit (bs.foldl (mergeBlock p l b) s) j d = true ↔
      freeBit s j d = true ∧ ¬ (j = l ∧ d ∈ bs) := by
  induction bs generalizing s with
  | nil => simp
  | cons c bs ih =>
    rw [foldl_cons, ih (mergeBlock_layout hs c) (fun d hd => hb d (by simp [hd])),
      freeBit_mergeBlock hs (hb c (by simp)) hd]
    simp only [Bool.and_eq_true, Bool.not_eq_true', decide_eq_false_iff_not, mem_cons]
    tauto

theorem mergeAll_rings (hp : ExactPool p) (hl : l < p.nLevels) (hnd : bs.Nodup)
    (hv : ∀ c ∈ bs, Valid p l c) (hm : ∀ c ∈ bs, c ≠ b → c ∈ fl l) (hb : b ∉ fl l)
    (hr : s.links.Rings {l | l < p.nLevels} Node.freeList (nodesOf p fl)) :
    (bs.foldl (mergeBlock p l b) s).links.Rings {l | l < p.nLevels} Node.freeList
      (nodesOf p (update fl l ((fl l).filter (· ∉ bs)))) := by
  induction bs generalizing s fl with
  | nil => simpa using hr
  | cons c bs ih =>
    obtain ⟨hc, hnd⟩ := nodup_cons.mp hnd
    have hlinks := mergeBlock_links (b := b) (s := s) hp (hv c (by simp))
    have hvs : ∀ d ∈ bs, Valid p l d := fun d hd => hv d (by simp [hd])
    by_cases hcb : c = b
    · rw [if_pos hcb] at hlinks
      have hh := ih (s := mergeBlock p l b s c) hnd hvs (fun d hd => hm d (by simp [hd])) hb
        (by rwa [hlinks])
      have he : (fl l).filter (· ∉ c :: bs) = (fl l).filter (· ∉ bs) := by
        apply filter_congr
        intro d hd
        have hne : d ≠ c := fun h => hb (hcb ▸ h ▸ hd)
        simp [hne]
      rwa [he]
    · rw [if_neg hcb] at hlinks
      have hcm := hm c (by simp) hcb
      have hfn := (hr.ring l hl).nodup.of_map
      obtain ⟨u, v, _, hx, he⟩ := exists_erase_eq hcm
      have hrem := sysDlistRemove_rings (u := u.map (blockNode p l)) (v := v.map (blockNode p l))
        hr hl (by rw [nodesOf, hx, map_append, map_cons])
      rw [← map_append, ← he, ← nodesOf_update, ← hlinks] at hrem
      have hh := ih (s := mergeBlock p l b s c) hnd hvs (fun d hd hdb => by
          have hdc : d ≠ c := fun h => hc (h ▸ hd)
          rw [update_self, hfn.mem_erase_iff]
          exact ⟨hdc, hm d (by simp [hd]) hdb⟩)
        (by rw [update_self]; exact fun h => hb (mem_of_mem_erase h)) hrem
      rw [update_self, update_idem, hfn.erase_eq_filter, filter_filter] at hh
      have hf : (fl l).filter (· ∉ c :: bs) =
          (fl l).filter (fun d => decide (d ∉ bs) && (d != c)) := by
        apply filter_congr
        intro d _
        by_cases hdc : d = c <;> simp [hdc]
      rwa [hf]

def partners (b : Nat) : List Nat := (range 4).map (b / 4 * 4 + ·)

theorem mem_partners {b c : Nat} : c ∈ partners b ↔ c / 4 = b / 4 := by
  simp only [partners, mem_map, mem_range]
  constructor
  · rintro ⟨i, hi, rfl⟩
    omega
  · intro h
    exact ⟨c % 4, by omega, by omega⟩

theorem partners_nodup (b : Nat) : (partners b).Nodup :=
  nodup_range.map (fun i j h => by simpa using h)

theorem partnerBits_setFreeBit (hs : Store p fl s) (hv : Valid p (l + 1) b) :
    partnerBits (setFreeBit s (l + 1) b) (l + 1) b = 0xf#32 ↔
      ∀ c ∈ partners b, c ≠ b → c ∈ fl (l + 1) := by
  have hbit : ∀ i < 4, (freeBit (setFreeBit s (l + 1) b) (l + 1) (b / 4 * 4 + i) = true ↔
      b / 4 * 4 + i ∈ fl (l + 1) ∨ b / 4 * 4 + i = b) := by
    intro i hi
    rw [freeBit_setFreeBit hs.layout hv (hv.partner hi), Bool.or_eq_true,
      hs.bits _ _ (hv.partner hi)]
    simp
  rw [partnerBits_eq_iff]
  constructor
  · intro h c hc hcb
    obtain ⟨i, hi, rfl⟩ := mem_map.mp hc
    have h4 := mem_range.mp hi
    exact ((hbit i h4).mp (h i h4)).resolve_right hcb
  · intro h i hi
    rw [hbit i hi]
    by_cases hb : b / 4 * 4 + i = b
    · exact .inr hb
    · exact .inl (h _ (mem_map_of_mem (mem_range.mpr hi)) hb)

theorem Store.merge (hp : ExactPool p) (hs : Store p fl s) (hv : Valid p (l + 1) b)
    (hb : b ∉ fl (l + 1)) (hm : ∀ c ∈ partners b, c ≠ b → c ∈ fl (l + 1)) :
    Store p (update fl (l + 1) ((fl (l + 1)).filter (· ∉ partners b)))
      ((partners b).foldl (mergeBlock p (l + 1) b) (setFreeBit s (l + 1) b)) := by
  have hlay : Layout p (setFreeBit s (l + 1) b) := ⟨hs.layout.inline, hs.layout.area⟩
  have hpv : ∀ c ∈ partners b, Valid p (l + 1) c := by
    intro c hc
    obtain ⟨i, hi, rfl⟩ := mem_map.mp hc
    exact hv.partner (mem_range.mp hi)
  constructor
  · exact mergeAll_layout hlay _
  · exact mergeAll_rings hp hv.1 (partners_nodup b) hpv hm hb hs.rings
  · intro j hj c hc
    exact hs.valid j hj c (update_subset (filter_subset_self _) j hc)
  · intro j c hc
    rw [freeBit_mergeAll hlay hpv hc, freeBit_setFreeBit hs.layout hv hc, Bool.or_eq_true,
      hs.bits j c hc, mem_update_iff]
    by_cases hj : j = l + 1
    · subst hj
      have hbp : b ∈ partners b := mem_partners.mpr rfl
      simp only [true_and, mem_filter, decide_eq_true_eq]
      constructor
      · rintro ⟨hc' | rfl, hcp⟩
        · exact ⟨hc', hcp⟩
        · exact absurd hbp hcp
      · rintro ⟨hc', hcp⟩
        exact ⟨.inl hc', hcp⟩
    · simp [hj]

structure LevelsDone (p : KMemPool) (n : Nat) (a : Pool × Nat × Nat) : Prop where
  size : a.2.1 = lsizes p n
  words : ∀ w, a.1.words w = 0#32
  head : ∀ i < n, a.1.links.next (.freeList i) = .freeList i ∧
    a.1.links.prev (.freeList i) = .freeList i
  inlineLt : a.1.maxInlineLevel < n ∨ n = 0
  inline : ∀ i < n, i ≤ a.1.maxInlineLevel ↔ nblocks p i < 32
  below : ∀ i < n, ¬ nblocks p i < 32 → a.1.bitsP i + (nblocks p i + 31) / 32 ≤ a.2.2
  area : ∀ i j, i < j → j < n → ¬ nblocks p i < 32 →
    a.1.bitsP i + (nblocks p i + 31) / 32 ≤ a.1.bitsP j

theorem nblocks_mono (p : KMemPool) {i j : Nat} (h : i ≤ j) : nblocks p i ≤ nblocks p j :=
  Nat.mul_le_mul_left _ (Nat.pow_le_pow_right (by decide) h)

variable {a : Pool × Nat × Nat} {n : Nat}

theorem LevelsDone.head_succ (hd : LevelsDone p n a)
    (hi : i < n + 1) : (sysDlistInit a.1.links (.freeList n)).next (.freeList i) = .freeList i ∧
      (sysDlistInit a.1.links (.freeList n)).prev (.freeList i) = .freeList i := by
  by_cases hin : i = n
  · subst hin
    simp [sysDlistInit, Links.setNext, Links.setPrev]
  · simpa [sysDlistInit, Links.setNext, Links.setPrev, hin] using hd.head i (by omega)

theorem LevelsDone.succ (hp : ExactPool p) (hn : n < p.nLevels)
    (hd : LevelsDone p n a) : LevelsDone p (n + 1) (initLevel p a n) := by
  obtain ⟨s, sz, _⟩ := a
  obtain rfl : sz = lsizes p n := hd.size
  have hnb : bufSize p / lsizes p n = nblocks p n := by
    rw [← hp.lsizes_nblocks hn, Nat.mul_div_cancel_left _ (hp.lsizes_pos hn)]
  have hz : nblocks p 0 < 32 := by simpa [nblocks] using hp.nMax_lt
  simp only [initLevel, hnb]
  split_ifs with h32
  · refine ⟨rfl, hd.words, fun i hi => hd.head_succ hi, .inl (by simp), ?_, ?_, ?_⟩
    · intro i hi
      have := nblocks_mono p (show i ≤ n by omega)
      dsimp only
      omega
    · intro i hi h
      have := nblocks_mono p (show i ≤ n by omega)
      omega
    · intro i j hij hj h
      have := nblocks_mono p (show i ≤ n by omega)
      omega
  · have hpos : n ≠ 0 := by
      rintro rfl
      exact h32 hz
    have hlt := hd.inlineLt.resolve_right hpos
    dsimp only at hlt
    refine ⟨rfl, hd.words, fun i hi => hd.head_succ hi, .inl (by dsimp only; omega), ?_, ?_, ?_⟩
    · intro i hi
      by_cases hin : i = n
      · subst hin
        dsimp only
        omega
      · exact hd.inline i (by omega)
    · intro i hi h
      by_cases hin : i = n
      · subst hin
        simp
      · have := hd.below i (by omega) h
        simp only [update_of_ne hin]
        dsimp only at this
        omega
    · intro i j hij hj h
      have hin : i ≠ n := by omega
      by_cases hjn : j = n
      · subst hjn
        simpa [hin] using hd.below i hij h
      · simpa [hin, hjn] using hd.area i j hij (by omega) h

theorem levelsDone (hp : ExactPool p) (links : Links Node) (hn : n ≤ p.nLevels) :
    LevelsDone p n ((range n).foldl (initLevel p) (zeroPool links, p.maxSz, 0)) := by
  induction n with
  | zero => exact ⟨hp.lsizes_zero.symm, fun _ => rfl, by simp, .inr rfl, by simp, by simp, by simp⟩
  | succ n ih =>
    rw [range_succ, foldl_append]
    exact (ih (by omega)).succ hp hn

theorem LevelsDone.store (hd : LevelsDone p p.nLevels a) : Store p (fun _ => []) a.1 := by
  refine ⟨⟨hd.inline, hd.area⟩, ⟨?_, ?_⟩, by simp, ?_⟩
  · intro l hl
    exact isRing_nil_iff.mpr (hd.head l hl)
  · intro i hi j hj hij x hx hx'
    simp only [nodesOf] at hx hx'
    simp_all
  · intro l b _
    simp [freeBit, hd.words]

theorem initMemPool_store (hp : ExactPool p) (links : Links Node) :
    Store p (update (fun _ => []) 0 (range p.nMax)) (initMemPool p links) := by
  have hs := (levelsDone hp links le_rfl).store
  have hput : initBlock p = putBlock p 0 := by
    funext s i
    simp only [initBlock, putBlock, blockNode, hp.lsizes_zero]
  have h := hs.put_all hp hp.nLevels_pos (range p.nMax) nodup_range
    (fun b hb => ⟨hp.nLevels_pos, by simpa [nblocks] using hb⟩) (by simp [nodesOf])
  simpa only [initMemPool, hput, nil_append] using h

def blockSpan (p : KMemPool) (b : Nat × Nat) : Span := ⟨blockPtr p (lsizes p b.1) b.2, lsizes p b.1⟩

def spans (p : KMemPool) (fl : Nat → List Nat) (held : List (Nat × Nat)) : List Span :=
  (range p.nLevels).flatMap (fun l => (fl l).map (fun b => blockSpan p (l, b))) ++
    held.map (blockSpan p)

structure Inv (p : KMemPool) (fl : Nat → List Nat) (s : State) : Prop where
  store : Store p fl s.pool
  held : ∀ b ∈ s.held, Valid p b.1 b.2
  once : ∀ x, cover (spans p fl s.held) x =
    if p.buf ≤ x ∧ x < p.buf + bufSize p then 1 else 0
  unmerged : ∀ l, 0 < l → l < p.nLevels → ∀ q, ¬ ∀ i < 4, 4 * q + i ∈ fl l

variable {p : KMemPool} {fl : Nat → List Nat} {s : Pool} {l b : Nat}

theorem cover_spans_update (fl : Nat → List Nat) (hl : l < p.nLevels) (xs : List Nat)
    (held held' : List (Nat × Nat)) (x : Nat) :
    cover (spans p (update fl l xs) held') x +
        cover ((fl l).map (fun b => blockSpan p (l, b))) x + cover (held.map (blockSpan p)) x =
      cover (spans p fl held) x + cover (xs.map (fun b => blockSpan p (l, b))) x +
        cover (held'.map (blockSpan p)) x := by
  have he : (fun j => (update fl l xs j).map (fun b => blockSpan p (j, b))) =
      update (fun j => (fl j).map (fun b => blockSpan p (j, b))) l
        (xs.map (fun b => blockSpan p (l, b))) := by
    funext j
    by_cases hj : j = l
    · subst hj
      simp
    · simp [update_of_ne hj]
  have hh := cover_flatMap_update hl (fun j => (fl j).map (fun b => blockSpan p (j, b)))
    (xs.map (fun b => blockSpan p (l, b))) x
  simp only [spans, cover_append, he]
  omega

theorem cover_quarters (hp : ExactPool p) (hl : l + 1 < p.nLevels) (q x : Nat) :
    cover (((range 4).map (4 * q + ·)).map (fun b => blockSpan p (l + 1, b))) x =
      if (blockSpan p (l, q)).Holds x then 1 else 0 := by
  have hq := hp.quarter l hl
  have he : ((range 4).map (4 * q + ·)).map (fun b => blockSpan p (l + 1, b)) = (range 4).map
        (fun i => (⟨blockPtr p (lsizes p l) q + lsizes p (l + 1) * i, lsizes p (l + 1)⟩ : Span)) := by
    rw [map_map]
    apply map_congr_left
    intro i _
    simp only [comp, blockSpan, blockPtr, Span.mk.injEq, hq, and_true]
    ring
  have hs : lsizes p (l + 1) * 4 = lsizes p l := by omega
  rw [he, cover_consecutive, hs]
  rfl

variable {s : State} {xs : List Nat}

theorem Inv.block_not_mem (hp : ExactPool p) (hi : Inv p fl s) {k c x j : Nat}
    (hb : (k, c) ∈ s.held) (hx : (blockSpan p (k, c)).Holds x) (hj : j < p.nLevels) :
    Node.block x ∉ nodesOf p fl j := by
  intro hm
  obtain ⟨d, hd, he⟩ := mem_map.mp hm
  have hstart := Node.block.inj he
  have hh : (blockSpan p (j, d)).Holds x := hstart ▸ Span.holds_start (hp.lsizes_pos hj)
  have hfree : 0 < cover
      ((range p.nLevels).flatMap (fun l => (fl l).map (fun b => blockSpan p (l, b)))) x :=
    cover_pos_iff.mpr ⟨blockSpan p (j, d), by
      simp only [mem_flatMap, mem_range, mem_map]
      exact ⟨j, hj, d, hd, rfl⟩, hh⟩
  have hheld : 0 < cover (s.held.map (blockSpan p)) x :=
    cover_pos_iff.mpr ⟨_, mem_map_of_mem hb, hx⟩
  have hc := hi.once x
  rw [spans, cover_append] at hc
  split_ifs at hc <;> omega

theorem cover_held_erase {held : List (Nat × Nat)} {c : Nat × Nat} (hc : c ∈ held) (x : Nat) :
    cover ((held.erase c).map (blockSpan p)) x + (if (blockSpan p c).Holds x then 1 else 0) =
      cover (held.map (blockSpan p)) x := by
  rw [← cover_cons]
  exact (((perm_cons_erase hc).map _).countP_eq _).symm

theorem unmerged_of_subset {fl' : Nat → List Nat} (hsub : ∀ j, fl' j ⊆ fl j)
    (h : ∀ l, 0 < l → l < p.nLevels → ∀ q, ¬ ∀ i < 4, 4 * q + i ∈ fl l) :
    ∀ l, 0 < l → l < p.nLevels → ∀ q, ¬ ∀ i < 4, 4 * q + i ∈ fl' l :=
  fun l hl hl' q hq => h l hl hl' q (fun i hi => hsub l (hq i hi))

theorem unmerged_update (h : ∀ l, 0 < l → l < p.nLevels → ∀ q, ¬ ∀ i < 4, 4 * q + i ∈ fl l)
    (hl : 0 < l → ∀ q, ¬ ∀ i < 4, 4 * q + i ∈ xs) :
    ∀ k, 0 < k → k < p.nLevels → ∀ q, ¬ ∀ i < 4, 4 * q + i ∈ update fl l xs k := by
  intro k hk hk'
  by_cases hkl : k = l
  · subst hkl
    simpa using hl hk
  · simpa [hkl] using h k hk hk'

theorem Inv.alloc (hp : ExactPool p) (hi : Inv p fl s) (hl : l < p.nLevels) :
    ∃ fl' s', step p s (.alloc l) = some s' ∧ Inv p fl' s' ∧ ∀ j, fl' j ⊆ fl j := by
  cases hf : fl l with
  | nil =>
    refine ⟨fl, s, ?_, hi, fun j => List.Subset.refl _⟩
    simp only [step, hl, if_true, allocBlock_nil hi.store hl hf]
  | cons b xs =>
    have hal := allocBlock_cons hp hi.store hl hf
    have hst := hi.store.take hl (b := b) (by simp [hf])
    rw [hf, erase_cons_head] at hst
    have hsub : ∀ j, update fl l xs j ⊆ fl j := update_subset (by simp [hf])
    refine ⟨update fl l xs, ⟨takeBlock p l s.pool b, (l, b) :: s.held⟩, ?_,
      ⟨hst, ?_, ?_, unmerged_of_subset hsub hi.unmerged⟩, hsub⟩
    · simp only [step, hl, if_true, hal, blockNum_blockPtr (hp.lsizes_pos hl)]
    · intro c hc
      rcases mem_cons.mp hc with rfl | hc
      · exact hi.store.valid l hl b (by simp [hf])
      · exact hi.held c hc
    · intro x
      have hu := cover_spans_update fl hl xs s.held ((l, b) :: s.held) x
      rw [hf, map_cons, cover_cons, map_cons, cover_cons] at hu
      have := hi.once x
      dsimp only
      omega

theorem child_holds (hp : ExactPool p) (hl : l + 1 < p.nLevels) {i : Nat} (hi : i < 4) :
    (blockSpan p (l, b)).Holds (blockPtr p (lsizes p (l + 1)) (4 * b + i)) := by
  have hq := hp.quarter l hl
  have hs := hp.lsizes_pos hl
  have ha : blockPtr p (lsizes p (l + 1)) (4 * b + i) =
      blockPtr p (lsizes p l) b + lsizes p (l + 1) * i := by
    rw [blockPtr, blockPtr, hq]
    ring
  have hlt := Nat.mul_lt_mul_of_pos_left hi hs
  simp only [Span.Holds, blockSpan]
  omega

theorem blockPtr_child (hp : ExactPool p) (hl : l + 1 < p.nLevels) :
    blockPtr p (lsizes p l) b = blockPtr p (lsizes p (l + 1)) (4 * b) := by
  rw [blockPtr, blockPtr, hp.quarter l hl]
  ring

theorem blockNum_child (hp : ExactPool p) (hl : l + 1 < p.nLevels) :
    blockNum p (blockPtr p (lsizes p l) b) (lsizes p (l + 1)) = 4 * b := by
  rw [blockPtr_child hp hl, blockNum_blockPtr (hp.lsizes_pos hl)]

theorem Inv.split (hp : ExactPool p) (hi : Inv p fl s) (hl : l + 1 < p.nLevels)
    (hb : (l, b) ∈ s.held) : ∃ s', step p s (.split l b) = some s' ∧
      Inv p (update fl (l + 1) (fl (l + 1) ++ [4 * b + 1, 4 * b + 2, 4 * b + 3])) s' := by
  have hv := hi.held _ hb
  have hfresh : ∀ i < 4, ∀ j < p.nLevels, blockNode p (l + 1) (4 * b + i) ∉ nodesOf p fl j :=
    fun i h4 j hj => hi.block_not_mem hp hb (child_holds hp hl h4) hj
  have hzero : 4 * b ∉ fl (l + 1) := by
    intro hm
    exact hfresh 0 (by decide) (l + 1) hl (mem_map_of_mem hm)
  have hst := hi.store.put_all hp hl [4 * b + 1, 4 * b + 2, 4 * b + 3] (by simp)
    (by simpa using ⟨hv.child hl (by decide), hv.child hl (by decide), hv.child hl (by decide)⟩)
    (by simpa using ⟨hfresh 1 (by decide), hfresh 2 (by decide), hfresh 3 (by decide)⟩)
  refine ⟨⟨[4 * b + 1, 4 * b + 2, 4 * b + 3].foldl (putBlock p (l + 1)) s.pool,
    (l + 1, 4 * b) :: s.held.erase (l, b)⟩, ?_, hst, ?_, ?_, ?_⟩
  · simp only [step, hb, hl, and_self, if_true, breakBlock_eq hp hv hl, blockNum_child hp hl]
  · intro c hc
    rcases mem_cons.mp hc with rfl | hc
    · exact hv.child (i := 0) hl (by decide)
    · exact hi.held c (mem_of_mem_erase hc)
  · intro x
    have hu := cover_spans_update fl hl (fl (l + 1) ++ [4 * b + 1, 4 * b + 2, 4 * b + 3]) s.held
      ((l + 1, 4 * b) :: s.held.erase (l, b)) x
    have hq := cover_quarters hp hl b x
    have he := cover_held_erase (p := p) hb x
    have := hi.once x
    simp only [map_append, cover_append, map_cons, map_nil, cover_cons, cover_nil,
      show range 4 = [0, 1, 2, 3] from rfl, Nat.add_zero] at hu hq
    dsimp only
    omega
  · refine unmerged_update hi.unmerged fun hk q hq => ?_
    have hm : ∀ i < 4, 4 * q + i ∈ fl (l + 1) ∨ 4 * q + i = 4 * b + 1 ∨ 4 * q + i = 4 * b + 2 ∨
        4 * q + i = 4 * b + 3 := by
      intro i h4
      simpa using hq i h4
    by_cases hqb : q = b
    · subst hqb
      rcases hm 0 (by decide) with h0 | h0
      · exact hzero h0
      · omega
    · apply hi.unmerged (l + 1) hk hl q
      intro i h4
      rcases hm i h4 with h0 | h0
      · exact h0
      · omega

theorem cover_filter_partners (hnd : xs.Nodup) (hb : b ∉ xs)
    (hm : ∀ c ∈ partners b, c ≠ b → c ∈ xs) (f : Nat → Span) (x : Nat) :
    cover ((xs.filter (· ∉ partners b)).map f) x + cover ((partners b).map f) x =
      cover (xs.map f) x + if (f b).Holds x then 1 else 0 := by
  have hbp : b ∈ partners b := mem_partners.mpr rfl
  have hsplit : (xs.filter (· ∈ partners b) ++ xs.filter (· ∉ partners b)).Perm xs := by
    simpa using filter_append_perm (fun c => decide (c ∈ partners b)) xs
  have hpart : ((partners b).erase b).Perm (xs.filter (· ∈ partners b)) := by
    rw [perm_ext_iff_of_nodup ((partners_nodup b).erase b) (hnd.filter _)]
    intro c
    rw [(partners_nodup b).mem_erase_iff, mem_filter, decide_eq_true_eq]
    constructor
    · rintro ⟨hcb, hc⟩
      exact ⟨hm c hc hcb, hc⟩
    · rintro ⟨hc, hcp⟩
      exact ⟨fun h => hb (h ▸ hc), hcp⟩
  have h1 : cover (xs.map f) x = cover ((xs.filter (· ∈ partners b)).map f) x +
      cover ((xs.filter (· ∉ partners b)).map f) x := by
    rw [← cover_append, ← map_append]
    exact ((hsplit.map f).countP_eq _).symm
  have h2 : cover (((partners b).erase b).map f) x =
      cover ((xs.filter (· ∈ partners b)).map f) x := (hpart.map f).countP_eq _
  have h3 : cover ((partners b).map f) x =
      cover (((partners b).erase b).map f) x + if (f b).Holds x then 1 else 0 := by
    rw [← cover_cons]
    exact ((perm_cons_erase hbp).map f).countP_eq _
  omega

section

variable (hp : ExactPool p) (hi : Inv p fl s)

include hp hi

theorem Inv.not_mem_of_held (hb : (l, b) ∈ s.held) : b ∉ fl l := by
  have hv := hi.held _ hb
  intro hm
  exact hi.block_not_mem hp hb (Span.holds_start (hp.lsizes_pos hv.1)) hv.1
    (mem_map_of_mem (f := blockNode p l) hm)

theorem Inv.put (hb : (l, b) ∈ s.held) (hpart : 0 < l → ¬ ∀ c ∈ partners b, c ≠ b → c ∈ fl l) :
    Inv p (update fl l (fl l ++ [b])) ⟨putBlock p l s.pool b, s.held.erase (l, b)⟩ := by
  have hv := hi.held _ hb
  have hfresh : ∀ j < p.nLevels, blockNode p l b ∉ nodesOf p fl j := fun j hj =>
    hi.block_not_mem hp hb (Span.holds_start (hp.lsizes_pos hv.1)) hj
  refine ⟨hi.store.put hv hfresh, ?_, ?_, ?_⟩
  · intro c hc
    exact hi.held c (mem_of_mem_erase hc)
  · intro x
    have hu := cover_spans_update fl hv.1 (fl l ++ [b]) s.held (s.held.erase (l, b)) x
    have he := cover_held_erase (p := p) hb x
    have := hi.once x
    simp only [map_append, cover_append, map_cons, map_nil, cover_cons, cover_nil] at hu
    dsimp only
    omega
  · refine unmerged_update hi.unmerged fun hk q hq => ?_
    have hm : ∀ i < 4, 4 * q + i ∈ fl l ∨ 4 * q + i = b := by
      intro i h4
      simpa using hq i h4
    by_cases hqb : q = b / 4
    · apply hpart hk
      intro c hc hcb
      have hc4 := mem_partners.mp hc
      have h4 := hm (c % 4) (by omega)
      rw [show 4 * q + c % 4 = c by omega] at h4
      exact h4.resolve_right hcb
    · apply hi.unmerged l hk hv.1 q
      intro i h4
      exact (hm i h4).resolve_right (by omega)

theorem Inv.merge (hb : (l + 1, b) ∈ s.held) (hm : ∀ c ∈ partners b, c ≠ b → c ∈ fl (l + 1)) :
    Inv p (update fl (l + 1) ((fl (l + 1)).filter (· ∉ partners b)))
      ⟨(partners b).foldl (mergeBlock p (l + 1) b) (setFreeBit s.pool (l + 1) b),
        (l, b / 4) :: s.held.erase (l + 1, b)⟩ := by
  have hv : Valid p (l + 1) b := hi.held _ hb
  have hbf := hi.not_mem_of_held hp hb
  refine ⟨hi.store.merge hp hv hbf hm, ?_, ?_, ?_⟩
  · intro c hc
    rcases mem_cons.mp hc with rfl | hc
    · exact hv.parent
    · exact hi.held c (mem_of_mem_erase hc)
  · intro x
    have hu := cover_spans_update fl hv.1 ((fl (l + 1)).filter (· ∉ partners b)) s.held
      ((l, b / 4) :: s.held.erase (l + 1, b)) x
    have he := cover_held_erase (p := p) hb x
    have hf := cover_filter_partners (hi.store.nodup hv.1) hbf hm
      (fun c => blockSpan p (l + 1, c)) x
    have hq := cover_quarters hp hv.1 (b / 4) x
    have hpe : partners b = (range 4).map (4 * (b / 4) + ·) := by
      simp only [partners, Nat.mul_comm]
    rw [← hpe] at hq
    have := hi.once x
    simp only [map_cons, cover_cons] at hu
    dsimp only
    omega
  · exact unmerged_of_subset (update_subset (filter_subset_self _)) hi.unmerged

theorem Inv.free (hb : (l, b) ∈ s.held) :
    ∃ fl' s', step p s (.free l b) = some s' ∧ Inv p fl' s' := by
  have hv : Valid p l b := hi.held _ hb
  by_cases hm : l ≠ 0 ∧ partnerBits (setFreeBit s.pool l b) l b = 0xf#32
  · obtain ⟨l, rfl⟩ := Nat.exists_eq_succ_of_ne_zero hm.1
    have hpart := (partnerBits_setFreeBit hi.store hv).mp hm.2
    refine ⟨_, _, ?_, hi.merge hp hb hpart⟩
    simp only [step, hb, if_true, freeBlock, if_pos hm]
    rfl
  · refine ⟨_, _, ?_, hi.put hp hb ?_⟩
    · simp only [step, hb, if_true, freeBlock, if_neg hm, hp.fits hv]
      rfl
    · intro hl hpart
      obtain ⟨l, rfl⟩ := Nat.exists_eq_succ_of_ne_zero hl.ne'
      exact hm ⟨hl.ne', (partnerBits_setFreeBit hi.store hv).mpr hpart⟩

end

theorem Inv.step (hp : ExactPool p) {s t : State} {a : Step} (hi : ∃ fl, Inv p fl s)
    (h : MemPool.step p s a = some t) : ∃ fl, Inv p fl t := by
  obtain ⟨_, hi⟩ := hi
  have hnext : ∃ fl' s', MemPool.step p s a = some s' ∧ Inv p fl' s' := by
    cases a with
    | alloc l =>
      have hl : l < p.nLevels := by
        by_contra hn
        simp [MemPool.step, hn] at h
      obtain ⟨fl', s', hs, hi', -⟩ := hi.alloc hp hl
      exact ⟨fl', s', hs, hi'⟩
    | split l b =>
      have hc : (l, b) ∈ s.held ∧ l + 1 < p.nLevels := by
        by_contra hn
        simp only [MemPool.step, if_neg hn] at h
        cases h
      exact ⟨_, hi.split hp hc.2 hc.1⟩
    | free l b =>
      have hc : (l, b) ∈ s.held := by
        by_contra hn
        simp [MemPool.step, hn] at h
      exact hi.free hp hc
  obtain ⟨fl', s', hs, hi'⟩ := hnext
  rw [h] at hs
  exact ⟨fl', Option.some.inj hs ▸ hi'⟩

theorem cover_flatMap_nil {n : Nat} {f : Nat → List Span} (hf : ∀ i < n, f i = []) (x : Nat) :
    cover ((range n).flatMap f) x = 0 := by
  have he : (range n).flatMap f = [] := by
    rw [flatMap_eq_nil_iff]
    intro i hi
    exact hf i (mem_range.mp hi)
  rw [he, cover_nil]

theorem Inv.init (hp : ExactPool p) (links : Links Node) :
    Inv p (update (fun _ => []) 0 (range p.nMax)) (initState p links) := by
  refine ⟨initMemPool_store hp links, by simp [initState], ?_, ?_⟩
  · intro x
    have hu := cover_spans_update (fun _ => []) hp.nLevels_pos (range p.nMax) [] [] x
    have hz : cover (spans p (fun _ => []) []) x = 0 := by
      simpa [spans] using cover_flatMap_nil (fun _ _ => rfl) x
    have hc := cover_consecutive p.buf (lsizes p 0) p.nMax x
    have hb : lsizes p 0 * p.nMax = bufSize p := by
      rw [hp.lsizes_zero, bufSize, Nat.mul_comm]
    rw [hb] at hc
    rw [← hc]
    simpa [initState, hz, blockSpan, blockPtr] using hu
  · intro l hl _ q hq
    have := hq 0 (by decide)
    simp [hl.ne'] at this

/-- After every run of the atomic steps the free lists hold blocks that, with the blocks held by
callers, tile the buffer; a block's bit is set exactly when it is on its level's list; and no
four partners are all free. -/
theorem blocks_tile_buffer (hp : ExactPool p) (links : Links Node) {steps : List Step}
    (h : steps.foldlM (step p) (initState p links) = some s) :
    ∃ fl : Nat → List Nat, s.pool.links.Rings {l | l < p.nLevels} Node.freeList (nodesOf p fl) ∧
      (∀ l < p.nLevels, ∀ b ∈ fl l, Valid p l b) ∧
      (∀ b ∈ s.held, Valid p b.1 b.2) ∧
      Tiles p.buf (p.buf + p.nMax * p.maxSz) (spans p fl s.held) ∧
      (∀ l b, Valid p l b → (freeBit s.pool l b = true ↔ b ∈ fl l)) ∧
      ∀ l, 0 < l → l < p.nLevels → ∀ q, ¬ ∀ i < 4, 4 * q + i ∈ fl l := by
  obtain ⟨fl, hi⟩ := run_invariant (P := fun s => ∃ fl, Inv p fl s)
    (fun _ _ _ hs ht => Inv.step hp hs ht) ⟨_, Inv.init hp links⟩ h
  refine ⟨fl, hi.store.rings, hi.store.valid, hi.held, ?_, hi.store.bits, hi.unmerged⟩
  apply Tiles.of_cover
  · intro b hb
    rcases mem_append.mp hb with hb | hb
    · simp only [mem_flatMap, mem_range, mem_map] at hb
      obtain ⟨l, hl, c, _, rfl⟩ := hb
      exact hp.lsizes_pos hl
    · obtain ⟨c, hc, rfl⟩ := mem_map.mp hb
      exact hp.lsizes_pos (hi.held c hc).1
  · exact hi.once

theorem blocks_tile_buffer_split : ∃ s,
    [Step.alloc 0, .split 0 0, .alloc 1, .free 1 1, .free 1 0].foldlM
      (step (kMemPoolDefine 0 16 64 1)) (initState (kMemPoolDefine 0 16 64 1) ⟨id, id⟩) = some s ∧
    s.held = [(0, 0)] ∧ ∃ fl, Tiles 0 64 (spans (kMemPoolDefine 0 16 64 1) fl s.held) := by
  have hp : ExactPool (kMemPoolDefine 0 16 64 1) :=
    kMemPoolDefine_exact (m := 16) (y := 1) 0 (by decide) (by decide) (by decide)
  have h : [Step.alloc 0, .split 0 0, .alloc 1, .free 1 1, .free 1 0].foldlM
      (step (kMemPoolDefine 0 16 64 1)) (initState (kMemPoolDefine 0 16 64 1) ⟨id, id⟩) =
    some _ := rfl
  obtain ⟨fl, _, _, _, ht, _, _⟩ := blocks_tile_buffer hp ⟨id, id⟩ h
  exact ⟨_, h, rfl, fl, ht⟩

end Zephyr.MemPool
