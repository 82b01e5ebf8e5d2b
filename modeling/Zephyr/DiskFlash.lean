import Zephyr.Slices

/-! A disk in flash memory, `disk_access_flash.c`. Flash is erased in blocks and written where it is
erased, so a part of a block is written by reading the block, changing it and writing it back. -/

namespace Zephyr.DiskFlash

open List

abbrev Byte := BitVec 8

def sectorSize : Nat := 512

/-- The configuration: `CONFIG_DISK_FLASH_START`, `CONFIG_DISK_VOLUME_SIZE`,
`CONFIG_DISK_ERASE_BLOCK_SIZE`, `CONFIG_DISK_FLASH_ERASE_ALIGNMENT` and
`CONFIG_DISK_FLASH_MAX_RW_SIZE`. Blocks begin at aligned addresses, and addresses are signed. -/
structure Config where
  start : Nat
  volume : Nat
  block : Nat
  align : Nat
  maxRw : Nat
  block_eq : ∃ k, block = 2 ^ k
  align_eq : ∃ k, align = 2 ^ k
  align_dvd : align ∣ block
  maxRw_pos : 0 < maxRw
  maxRw_dvd : maxRw ∣ block
  bound : start + volume + block ≤ 2 ^ 31

structure Flash where
  data : Nat → Byte
  erased : Nat → Bool

section

variable (cfg : Config) (f : Flash)

def flashRead (addr len : Nat) : List Byte := load f.data addr len

def flashErase (addr len : Nat) : Flash where
  data := store f.data addr (replicate len 0xFF#8)
  erased := store f.erased addr (replicate len true)

def flashWrite (addr : Nat) (x : List Byte) : Option Flash :=
  if (load f.erased addr x.length).all id then
    some ⟨store f.data addr x, store f.erased addr (replicate x.length false)⟩
  else none

def roundDown (x n : Nat) : Nat := x - (x &&& (n - 1))

def getNumBlock (total block : Nat) : Nat := (total + block - 1) / block

def getSizeToBoundary (start block : Nat) : Nat := block - (start &&& (block - 1))

def lbaToAddress (sector : Nat) : Nat := cfg.start + sector * sectorSize % 2 ^ 32

def readLoop (cfg : Config) (f : Flash) : Nat → Nat → Nat → Nat → List Byte
  | 0, _, _, _ => []
  | n + 1, addr, len, remaining =>
    let len := if remaining < cfg.maxRw then remaining else len
    flashRead f addr len ++ readLoop cfg f n (addr + len) len (remaining - len)

def diskAccessRead (startSector sectorCount : Nat) : List Byte :=
  let remaining := sectorCount * sectorSize % 2 ^ 32
  readLoop cfg f (getNumBlock remaining cfg.maxRw) (lbaToAddress cfg startSector) cfg.maxRw
    remaining

/-- `read_copy_flash_block`: a block with the source over it. -/
def readCopyFlashBlock (startAddr : Nat) (src : List Byte) : List Byte :=
  let offset := startAddr &&& (cfg.align - 1)
  let addr := roundDown startAddr cfg.align
  let dest := (range (getNumBlock cfg.block cfg.maxRw)).flatMap fun i =>
    flashRead f (addr + cfg.maxRw * i) cfg.maxRw
  writeAt dest offset src

def writeLoop (cfg : Config) : Nat → Flash → Nat → List Byte → Option Flash
  | 0, f, _, _ => some f
  | n + 1, f, addr, src =>
    (flashWrite f addr (src.take cfg.maxRw)).bind fun f =>
      writeLoop cfg n f (addr + cfg.maxRw) (src.drop cfg.maxRw)

def updateFlashBlock (startAddr : Nat) (buff : List Byte) : Option Flash :=
  let src := if buff.length < cfg.block then readCopyFlashBlock cfg f startAddr buff else buff
  let addr := roundDown startAddr cfg.align
  writeLoop cfg (getNumBlock cfg.block cfg.maxRw) (flashErase f addr cfg.block) addr src

def blockLoop (cfg : Config) : Nat → Flash → Nat → List Byte → Option Flash
  | 0, f, addr, buff => if buff.length = 0 then some f else updateFlashBlock cfg f addr buff
  | n + 1, f, addr, buff =>
    if buff.length < cfg.block then
      if buff.length = 0 then some f else updateFlashBlock cfg f addr buff
    else
      (updateFlashBlock cfg f addr (buff.take cfg.block)).bind fun f =>
        blockLoop cfg n f (addr + cfg.block) (buff.drop cfg.block)

def diskAccessWrite (buff : List Byte) (startSector sectorCount : Nat) : Option Flash :=
  let addr := lbaToAddress cfg startSector
  let buff := buff.take (sectorCount * sectorSize % 2 ^ 32)
  if addr &&& (cfg.align - 1) ≠ 0 then
    let blockBnd := roundDown (addr + cfg.block) cfg.block
    if addr + buff.length < blockBnd then updateFlashBlock cfg f addr buff
    else
      let size := getSizeToBoundary addr cfg.block
      (updateFlashBlock cfg f addr (buff.take size)).bind fun f =>
        blockLoop cfg (buff.length - size) f (addr + size) (buff.drop size)
  else blockLoop cfg buff.length f addr buff

end

variable {cfg : Config} {f f' : Flash} {addr n : Nat} {src buff : List Byte} {remaining k : Nat}

theorem and_sub_one {k : Nat} (h : ∃ j, k = 2 ^ j) (x : Nat) : x &&& (k - 1) = x % k := by
  obtain ⟨j, rfl⟩ := h
  exact Nat.and_two_pow_sub_one_eq_mod x j

theorem roundDown_add_mod {k : Nat} (h : ∃ j, k = 2 ^ j) (x : Nat) : roundDown x k + x % k = x := by
  rw [roundDown, and_sub_one h]
  exact Nat.sub_add_cancel (Nat.mod_le x k)

theorem block_pos (cfg : Config) : 0 < cfg.block := by
  obtain ⟨k, hk⟩ := cfg.block_eq
  rw [hk]
  exact Nat.two_pow_pos k

theorem getNumBlock_mul (cfg : Config) :
    getNumBlock cfg.block cfg.maxRw * cfg.maxRw = cfg.block := by
  obtain ⟨q, hq⟩ := cfg.maxRw_dvd
  have hpos := cfg.maxRw_pos
  have hnum : getNumBlock cfg.block cfg.maxRw = q := by
    rw [getNumBlock, hq, Nat.add_sub_assoc hpos, Nat.mul_add_div hpos,
      Nat.div_eq_of_lt (by omega), Nat.add_zero]
  rw [hnum, hq, Nat.mul_comm]

theorem flatMap_flashRead (f : Flash) (addr k n : Nat) :
    (range n).flatMap (fun i => flashRead f (addr + k * i) k) = load f.data addr (n * k) := by
  induction n with
  | zero => rw [Nat.zero_mul]; rfl
  | succ n ih =>
    rw [range_succ, flatMap_append, ih, Nat.succ_mul, load_add, Nat.mul_comm n k]
    simp [flashRead]

theorem flashWrite_erased (x : List Byte)
    (h : load f.erased addr x.length = replicate x.length true) :
    flashWrite f addr x =
      some ⟨store f.data addr x, store f.erased addr (replicate x.length false)⟩ := by
  rw [flashWrite, if_pos (by rw [h]; simp)]

theorem load_eq_replicate_add {m : Nat → Bool} {k : Nat} :
    load m addr (n + k) = replicate (n + k) true ↔
      load m addr n = replicate n true ∧ load m (addr + n) k = replicate k true := by
  rw [load_add, replicate_add]
  constructor
  · intro h
    exact append_inj h (by simp)
  · rintro ⟨h, h'⟩
    rw [h, h']

theorem writeLoop_eq (hsrc : src.length = n * cfg.maxRw)
    (h : load f.erased addr (n * cfg.maxRw) = replicate (n * cfg.maxRw) true) :
    ∃ f', writeLoop cfg n f addr src = some f' ∧ f'.data = store f.data addr src := by
  induction n generalizing f addr src with
  | zero =>
    rw [Nat.zero_mul] at hsrc
    rw [eq_nil_of_length_eq_zero hsrc]
    exact ⟨f, rfl, (store_nil ..).symm⟩
  | succ n ih =>
    rw [Nat.succ_mul, Nat.add_comm] at hsrc h
    obtain ⟨hfirst, hrest⟩ := load_eq_replicate_add.mp h
    have htake : (src.take cfg.maxRw).length = cfg.maxRw := by
      rw [length_take]
      omega
    have hwrite := flashWrite_erased (src.take cfg.maxRw) (by rwa [htake])
    rw [htake] at hwrite
    have hrest' : load (store f.erased addr (replicate cfg.maxRw false)) (addr + cfg.maxRw)
        (n * cfg.maxRw) = replicate (n * cfg.maxRw) true := by
      rwa [load_store_of_le (Nat.le_of_eq (by rw [length_replicate]))]
    have hdrop : (src.drop cfg.maxRw).length = n * cfg.maxRw := by
      rw [length_drop]
      omega
    obtain ⟨f', hloop, hdata⟩ :=
      @ih ⟨store f.data addr (src.take cfg.maxRw), _⟩ _ _ hdrop hrest'
    refine ⟨f', ?_, ?_⟩
    · rw [writeLoop, hwrite]
      exact hloop
    · rw [hdata]
      have happend := store_append f.data addr (src.take cfg.maxRw) (src.drop cfg.maxRw)
      rwa [htake, take_append_drop] at happend

theorem updateFlashBlock_eq (hfit : addr % cfg.align + buff.length ≤ cfg.block) :
    ∃ f', updateFlashBlock cfg f addr buff = some f' ∧ f'.data = store f.data addr buff := by
  have hround := roundDown_add_mod cfg.align_eq addr
  generalize hbase : roundDown addr cfg.align = base at hround
  obtain ⟨src, hsrc, hlen, hstore⟩ : ∃ src, src = (if buff.length < cfg.block then
      readCopyFlashBlock cfg f addr buff else buff) ∧ src.length = cfg.block ∧
      store f.data base src = store f.data addr buff := by
    refine ⟨_, rfl, ?_⟩
    split
    · rw [readCopyFlashBlock, and_sub_one cfg.align_eq, hbase, flatMap_flashRead, getNumBlock_mul]
      refine ⟨?_, ?_⟩
      · rw [writeAt, length_append, length_append, length_take, length_drop, load_length]
        omega
      · rw [store_writeAt_load hfit, hround]
    · next hfull =>
      have hzero : addr % cfg.align = 0 := by omega
      rw [hzero, Nat.add_zero] at hround
      exact ⟨by omega, by rw [hround]⟩
  have herased : load (flashErase f base cfg.block).erased base cfg.block =
      replicate cfg.block true := by
    have hsame := load_store_same f.erased base (replicate cfg.block true)
    rwa [length_replicate] at hsame
  rw [← getNumBlock_mul cfg] at hlen herased
  obtain ⟨f', hloop, hdata⟩ := writeLoop_eq hlen herased
  refine ⟨f', ?_, ?_⟩
  · rw [updateFlashBlock, hbase, ← hsrc]
    rwa [getNumBlock_mul] at hloop
  · rw [hdata, ← hstore]
    refine store_store ?_
    rw [hlen, length_replicate]

theorem blockLoop_eq (hfuel : buff.length ≤ n) (halign : cfg.align ∣ addr) :
    ∃ f', blockLoop cfg n f addr buff = some f' ∧ f'.data = store f.data addr buff := by
  have hpart (f : Flash) (buff : List Byte) (addr : Nat) (halign : cfg.align ∣ addr)
      (hlen : buff.length ≤ cfg.block) :
      ∃ f', updateFlashBlock cfg f addr buff = some f' ∧ f'.data = store f.data addr buff := by
    refine updateFlashBlock_eq ?_
    omega
  induction n generalizing f addr buff with
  | zero =>
    rw [eq_nil_of_length_eq_zero (Nat.le_zero.mp hfuel)]
    exact ⟨f, rfl, (store_nil ..).symm⟩
  | succ n ih =>
    rw [blockLoop]
    by_cases hshort : buff.length < cfg.block
    · rw [if_pos hshort]
      by_cases hempty : buff.length = 0
      · rw [eq_nil_of_length_eq_zero hempty]
        exact ⟨f, rfl, (store_nil ..).symm⟩
      · rw [if_neg hempty]
        exact hpart f buff addr halign (Nat.le_of_lt hshort)
    · rw [if_neg hshort]
      have htake : (buff.take cfg.block).length = cfg.block := by
        rw [length_take]
        omega
      obtain ⟨f1, hfirst, hdata1⟩ := hpart f (buff.take cfg.block) addr halign (by omega)
      have hpos := block_pos cfg
      obtain ⟨f', hrest, hdata⟩ := @ih f1 (addr + cfg.block) (buff.drop cfg.block)
        (by rw [length_drop]; omega) (Nat.dvd_add halign cfg.align_dvd)
      refine ⟨f', by rw [hfirst]; exact hrest, ?_⟩
      have happend := store_append f.data addr (buff.take cfg.block) (buff.drop cfg.block)
      rwa [htake, take_append_drop, ← hdata1, ← hdata] at happend

structure Range (cfg : Config) where
  startSector : Nat
  sectorCount : Nat
  start_lt : startSector * sectorSize < cfg.volume
  le_volume : (startSector + sectorCount) * sectorSize ≤ cfg.volume

structure Write (cfg : Config) extends Range cfg where
  buff : List Byte
  length_eq : buff.length = sectorCount * sectorSize

theorem diskAccessWrite_eq (f : Flash) (w : Write cfg) :
    ∃ f', diskAccessWrite cfg f w.buff w.startSector w.sectorCount = some f' ∧
      f'.data = store f.data (cfg.start + w.startSector * sectorSize) w.buff := by
  have hbound := cfg.bound
  have hle := w.le_volume
  rw [Nat.add_mul] at hle
  have hmod : w.sectorCount * sectorSize % 2 ^ 32 = w.sectorCount * sectorSize :=
    Nat.mod_eq_of_lt (by omega)
  have hmod' : w.startSector * sectorSize % 2 ^ 32 = w.startSector * sectorSize :=
    Nat.mod_eq_of_lt (by omega)
  rw [diskAccessWrite, lbaToAddress, hmod, hmod', ← w.length_eq, take_length]
  generalize cfg.start + w.startSector * sectorSize = addr
  generalize w.buff = buff
  dsimp only
  rw [and_sub_one cfg.align_eq]
  by_cases halign : addr % cfg.align = 0
  · rw [if_neg (not_not.mpr halign)]
    exact blockLoop_eq (Nat.le_refl _) (Nat.dvd_of_mod_eq_zero halign)
  rw [if_pos halign]
  have hpos := block_pos cfg
  -- the place in the erase block is at least the place behind the alignment
  have hmodle : addr % cfg.align ≤ addr % cfg.block := by
    rw [← Nat.mod_mod_of_dvd addr cfg.align_dvd]
    exact Nat.mod_le ..
  have hmodlt := Nat.mod_lt addr hpos
  have hbnd := roundDown_add_mod cfg.block_eq (addr + cfg.block)
  rw [Nat.add_mod_right] at hbnd
  by_cases hinside : addr + buff.length < roundDown (addr + cfg.block) cfg.block
  · rw [if_pos hinside]
    exact updateFlashBlock_eq (by omega)
  rw [if_neg hinside, getSizeToBoundary, and_sub_one cfg.block_eq]
  generalize hsize : cfg.block - addr % cfg.block = size
  have htake : (buff.take size).length = size := by
    rw [length_take]
    omega
  obtain ⟨f1, hfirst, hdata1⟩ :=
    @updateFlashBlock_eq cfg f addr (buff.take size) (by omega)
  have hnext : cfg.align ∣ addr + size := by
    refine Nat.dvd_trans cfg.align_dvd ⟨addr / cfg.block + 1, ?_⟩
    have hdiv := Nat.div_add_mod addr cfg.block
    rw [Nat.mul_add]
    omega
  obtain ⟨f', hrest, hdata⟩ := @blockLoop_eq cfg f1 (addr + size) (buff.length - size)
    (buff.drop size) (Nat.le_of_eq length_drop) hnext
  refine ⟨f', by rw [hfirst]; exact hrest, ?_⟩
  have happend := store_append f.data addr (buff.take size) (buff.drop size)
  rwa [htake, take_append_drop, ← hdata1, ← hdata] at happend

theorem getNumBlock_eq_zero (hpos : 0 < k) (h : getNumBlock remaining k = 0) : remaining = 0 := by
  have hlt := (Nat.div_eq_zero_iff_lt hpos).mp h
  omega

theorem getNumBlock_succ (hpos : 0 < k)
    (h : getNumBlock remaining k = n + 1) : getNumBlock (remaining - k) k = n := by
  rw [getNumBlock] at *
  by_cases hle : k ≤ remaining
  · obtain ⟨j, rfl⟩ := Nat.exists_eq_add_of_le hle
    have hsum : k + j + k - 1 = (j + k - 1) + k := by omega
    rw [hsum, Nat.add_div_right _ hpos] at h
    rw [Nat.add_sub_cancel_left]
    omega
  · have hlt : (remaining + k - 1) / k < 2 := by
      rw [Nat.div_lt_iff_lt_mul hpos]
      omega
    rw [Nat.div_eq_of_lt (by omega)]
    omega

theorem readLoop_eq (cfg : Config) (f : Flash) {len remaining : Nat}
    (hlen : len = cfg.maxRw ∨ remaining = 0) (hn : getNumBlock remaining cfg.maxRw = n)
    (addr : Nat) : readLoop cfg f n addr len remaining = load f.data addr remaining := by
  have hpos := cfg.maxRw_pos
  induction n generalizing addr len remaining with
  | zero => rw [getNumBlock_eq_zero hpos hn]; rfl
  | succ n ih =>
    have hnext := getNumBlock_succ hpos hn
    rw [readLoop]
    by_cases hshort : remaining < cfg.maxRw
    · rw [Nat.sub_eq_zero_of_le (Nat.le_of_lt hshort)] at hnext
      simp only [if_pos hshort, Nat.sub_self, ih (.inr rfl) hnext]
      exact append_nil _
    · obtain rfl : len = cfg.maxRw := by omega
      obtain ⟨k, rfl⟩ := Nat.exists_eq_add_of_le (Nat.not_lt.mp hshort)
      rw [Nat.add_sub_cancel_left] at hnext
      simp only [if_neg hshort, Nat.add_sub_cancel_left, flashRead, ih (.inl rfl) hnext, load_add]

def Write.base (w : Write cfg) : Nat := cfg.start + w.startSector * sectorSize

def Write.Covers (w : Write cfg) (a : Nat) : Bool :=
  w.base ≤ a && a < w.base + w.sectorCount * sectorSize

def latest (f : Flash) (ws : List (Write cfg)) (a : Nat) : Byte :=
  match ws.reverse.find? fun w => w.Covers a with
  | some w => w.buff.getD (a - w.base) 0
  | none => f.data a

theorem latest_append (f : Flash) (ws : List (Write cfg)) (w : Write cfg) (a : Nat) :
    latest f (ws ++ [w]) a = store (latest f ws) w.base w.buff a := by
  have hlen := w.length_eq
  rw [latest, reverse_append, reverse_singleton, singleton_append, find?_cons]
  by_cases hcov : w.Covers a
  · have hin := hcov
    simp only [Write.Covers, Bool.and_eq_true, decide_eq_true_eq] at hin
    rw [hcov, store_of_mem hin.1 (by omega)]
    simp only [getD_eq_getElem?_getD]
    rw [getElem?_eq_getElem (by omega)]
    rfl
  · have hout : a < w.base ∨ w.base + w.buff.length ≤ a := by
      simp only [Write.Covers, Bool.and_eq_true, decide_eq_true_eq] at hcov
      omega
    rw [Bool.eq_false_iff.mpr hcov, store_of_not_mem hout]
    rfl

def writeAll (cfg : Config) (f : Flash) (ws : List (Write cfg)) : Option Flash :=
  ws.foldlM (fun f w => diskAccessWrite cfg f w.buff w.startSector w.sectorCount) f

theorem writeAll_eq (f : Flash) (ws : List (Write cfg)) :
    ∃ f', writeAll cfg f ws = some f' ∧ f'.data = latest f ws := by
  induction ws using reverseRecOn with
  | nil => exact ⟨f, rfl, rfl⟩
  | append_singleton ws w ih =>
    obtain ⟨f1, hws, hdata1⟩ := ih
    obtain ⟨f', hw, hdata⟩ := diskAccessWrite_eq f1 w
    refine ⟨f', ?_, ?_⟩
    · rw [writeAll, foldlM_append]
      rw [writeAll] at hws
      rw [hws]
      simpa using hw
    · funext a
      rw [hdata, hdata1, latest_append]
      rfl

/-- Whatever has been written, all writes succeed, each byte of the flash is what was written there
last, and so is each byte that is read from the disk. -/
theorem read_after_writes (f : Flash) (ws : List (Write cfg)) :
    ∃ f', writeAll cfg f ws = some f' ∧ (∀ a, f'.data a = latest f ws a) ∧
      ∀ r : Range cfg, diskAccessRead cfg f' r.startSector r.sectorCount =
        load (latest f ws) (cfg.start + r.startSector * sectorSize)
          (r.sectorCount * sectorSize) := by
  obtain ⟨f', hwrite, hdata⟩ := writeAll_eq f ws
  refine ⟨f', hwrite, fun a => by rw [hdata], fun r => ?_⟩
  have hbound := cfg.bound
  have hle := r.le_volume
  rw [Nat.add_mul] at hle
  have hstart : r.startSector * sectorSize < 2 ^ 32 := by omega
  have hcount : r.sectorCount * sectorSize < 2 ^ 32 := by omega
  rw [diskAccessRead, lbaToAddress, Nat.mod_eq_of_lt hstart, Nat.mod_eq_of_lt hcount,
    readLoop_eq cfg f' (.inl rfl) rfl, hdata]

def arduino101 : Config where
  start := 0
  volume := 0x200000
  block := 0x1000
  align := 0x1000
  maxRw := 256
  block_eq := ⟨12, rfl⟩
  align_eq := ⟨12, rfl⟩
  align_dvd := Nat.dvd_refl _
  maxRw_pos := by decide
  maxRw_dvd := ⟨16, rfl⟩
  bound := by decide

def blank : Flash := ⟨fun _ => 0, fun _ => false⟩

def twoSectors : Write arduino101 where
  startSector := 7
  sectorCount := 2
  start_lt := by decide
  le_volume := by decide
  buff := replicate 1024 5
  length_eq := length_replicate

theorem twoSectors_read : ∃ f', writeAll arduino101 blank [twoSectors] = some f' ∧
    diskAccessRead arduino101 f' 8 1 =
      load (latest blank [twoSectors]) (arduino101.start + 8 * sectorSize) (1 * sectorSize) := by
  obtain ⟨f', hwrite, -, hread⟩ := read_after_writes blank [twoSectors]
  exact ⟨f', hwrite, hread ⟨8, 1, by decide, by decide⟩⟩

end Zephyr.DiskFlash
