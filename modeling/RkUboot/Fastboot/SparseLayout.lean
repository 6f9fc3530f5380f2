import RkUboot.Fastboot.Stream

set_option autoImplicit false

/-! # What a sparse image puts on the storage

The chunks of an image say which of its bytes go to which blocks. `applyChunks` is that as a function
on the contents of the storage, one block at a time, and `unsparse` computes it. A block number has 32
bits, so `putBlocks` counts modulo `2 ^ 32`; a write that ends behind the last block number does not
succeed on any medium, and `Event.OnMedium` says that there is none. -/

namespace Fastboot

/-! ## Blocks -/

/-- Put `n` blocks from offset `src` of `image` to the blocks from `sector` on, one after the other. -/
def putBlocks (image : Mem) : Nat → Nat → Nat → Mem → Mem
  | 0, _, _, disk => disk
  | n + 1, src, sector, disk =>
    putBlocks image n (src + 512) (sector + 1) (disk.copy (512 * (sector % 2 ^ 32)) image src 512)

/-- The write ends on the medium. -/
def Event.OnMedium : Event → Prop
  | .write _ lba n _ _ _ => lba + n ≤ 2 ^ 32
  | _ => True

instance : DecidablePred Event.OnMedium := fun e => by
  cases e with
  | write target lba n image off ok => exact inferInstanceAs (Decidable (lba + n ≤ 2 ^ 32))
  | _ => exact .isTrue trivial

variable {blkSz dest n outlen sectionSize sector sector' source src : Nat}

section Blocks

variable {image : Mem} {src sector : Nat} {disk : Mem}

theorem putBlocks_add (n m : Nat) :
    putBlocks image (n + m) src sector disk
      = putBlocks image m (src + 512 * n) (sector + n) (putBlocks image n src sector disk) := by
  induction n generalizing src sector disk with
  | zero => rw [Nat.zero_add]; rfl
  | succ n ih =>
    rw [Nat.succ_add, putBlocks, ih, putBlocks]
    congr 1 <;> omega

/-- Block numbers count modulo `2 ^ 32`. -/
theorem putBlocks_mod (n : Nat) (h : sector % 2 ^ 32 = sector' % 2 ^ 32) :
    putBlocks image n src sector disk = putBlocks image n src sector' disk := by
  induction n generalizing src sector sector' disk with
  | zero => rfl
  | succ n ih =>
    rw [putBlocks, putBlocks, h]
    exact ih (by omega)

/-- Only the bytes of the blocks matter. -/
theorem putBlocks_congr {image' : Mem} {src' : Nat} (n : Nat)
    (h : ∀ i < 512 * n, image (src + i) = image' (src' + i)) :
    putBlocks image n src sector disk = putBlocks image' n src' sector disk := by
  induction n generalizing src src' sector disk with
  | zero => rfl
  | succ n ih =>
    have hfirst : ∀ i < 512, image (src + i) = image' (src' + i) := fun i hi => h i (by omega)
    rw [putBlocks, putBlocks, Mem.copy_congr _ _ _ _ _ hfirst]
    refine ih (fun i hi => ?_)
    rw [Nat.add_assoc, Nat.add_assoc]
    exact h (512 + i) (by omega)

/-- One transfer that ends on the medium puts its blocks there. -/
theorem copy_eq_putBlocks (n : Nat) (h : sector % 2 ^ 32 + n ≤ 2 ^ 32) :
    disk.copy (512 * (sector % 2 ^ 32)) image src (512 * n) = putBlocks image n src sector disk := by
  induction n generalizing src sector disk with
  | zero =>
    funext x
    exact Mem.copy_apply_out (by omega)
  | succ n ih =>
    rw [show 512 * (n + 1) = 512 + 512 * n by omega, Mem.copy_add, putBlocks]
    cases n with
    | zero =>
      funext x
      exact Mem.copy_apply_out (by omega)
    | succ n =>
      have hnext : (sector + 1) % 2 ^ 32 = sector % 2 ^ 32 + 1 := by omega
      rw [← ih (by omega), hnext]
      congr 1

end Blocks

/-- A write that ends on a medium without failures. -/
theorem storageWriteLba_put {target : Target} {lba : Nat} {image : Mem} {off : Nat} {io : Io}
    (hscript : io.dev.script = []) (hn : n < 2 ^ 32)
    (hon : ∀ e ∈ (storageWriteLba target lba n image off io).2.events, e.OnMedium) :
    (storageWriteLba target lba n image off io).1 = true ∧
      (storageWriteLba target lba n image off io).2.dev.script = [] ∧
      (storageWriteLba target lba n image off io).2.dev.disk
        = putBlocks image n off lba io.dev.disk := by
  have hend : lba % 2 ^ 32 + n % 2 ^ 32 ≤ 2 ^ 32 := hon _ (.head _)
  rw [Nat.mod_eq_of_lt hn] at hend
  unfold storageWriteLba
  rw [BlockDev.write_of_nil _ _ _ _ hscript, Nat.mod_eq_of_lt hn]
  exact ⟨rfl, hscript, copy_eq_putBlocks n hend⟩

/-! ## Chunks -/

/-- The contents of the storage once the `k` chunks from offset `source` are applied. -/
def applyChunks (image : Mem) (blkSz : Nat) : Nat → Nat → Nat → Mem → Mem
  | 0, _, _, disk => disk
  | k + 1, source, sector, disk =>
    let n := chunkLen image blkSz source
    if IsRaw image blkSz source then
      applyChunks image blkSz k (source + 12 + n) (sector + n / 512)
        (putBlocks image (n / 512) (source + 12) sector disk)
    else applyChunks image blkSz k (source + 12) (sector + n / 512) disk

/-- Where the `k` chunks from offset `source` end. -/
def chunksEnd (image : Mem) (blkSz : Nat) : Nat → Nat → Nat
  | 0, source => source
  | k + 1, source =>
    if IsRaw image blkSz source then
      chunksEnd image blkSz k (source + 12 + chunkLen image blkSz source)
    else chunksEnd image blkSz k (source + 12)

/-- Every RAW chunk is shorter than `2 ^ 31` bytes. -/
def RawBelow (image : Mem) (blkSz : Nat) : Nat → Nat → Prop
  | 0, _ => True
  | k + 1, source =>
    if IsRaw image blkSz source then
      chunkLen image blkSz source < 2 ^ 31 ∧
        RawBelow image blkSz k (source + 12 + chunkLen image blkSz source)
    else RawBelow image blkSz k (source + 12)

instance RawBelow.decidable (image : Mem) (blkSz : Nat) :
    ∀ k source, Decidable (RawBelow image blkSz k source)
  | 0, _ => .isTrue trivial
  | k + 1, source =>
    have := RawBelow.decidable image blkSz k
    inferInstanceAs (Decidable (if IsRaw image blkSz source then _ ∧ RawBelow image blkSz k _
      else RawBelow image blkSz k _))

/-- Every chunk has a header that the loops take. -/
def ChunksGood (image : Mem) (blkSz : Nat) : Nat → Nat → Prop
  | 0, _ => True
  | k + 1, source =>
    IsRaw image blkSz source ∧ chunkLen image blkSz source < 2 ^ 31 ∧
        ChunksGood image blkSz k (source + 12 + chunkLen image blkSz source) ∨
      IsSkip image source ∧ ChunksGood image blkSz k (source + 12)

section Chunks

variable {image : Mem} {blkSz : Nat}

theorem applyChunks_mod (k : Nat) {disk : Mem}
    (h : sector % 2 ^ 32 = sector' % 2 ^ 32) :
    applyChunks image blkSz k source sector disk = applyChunks image blkSz k source sector' disk := by
  induction k generalizing source sector sector' disk with
  | zero => rfl
  | succ k ih =>
    simp only [applyChunks]
    rw [putBlocks_mod _ h]
    split <;> exact ih (by omega)

theorem le_chunksEnd (k source : Nat) : source ≤ chunksEnd image blkSz k source := by
  induction k generalizing source with
  | zero => exact le_rfl
  | succ k ih =>
    rw [chunksEnd]
    split <;> exact (by omega : source ≤ _).trans (ih _)

theorem add_le_chunksEnd_succ (k source : Nat) :
    source + 12 ≤ chunksEnd image blkSz (k + 1) source := by
  rw [chunksEnd]
  split
  · exact (Nat.le_add_right _ _).trans (le_chunksEnd k _)
  · exact le_chunksEnd k _

end Chunks

/-! ## The one-shot loops -/

section Unsparse

variable {target : Target} {image : Mem} {io : Io}

/-- 32 blocks a round put all blocks on the storage. -/
theorem copyRounds_put (k : Nat) {remain : Nat} (hk : remain ≤ 32 * k)
    (hscript : io.dev.script = [])
    (hon : ∀ e ∈ (copyRounds target image k src dest remain io).2.events, e.OnMedium) :
    (copyRounds target image k src dest remain io).2.dev.script = [] ∧
      (copyRounds target image k src dest remain io).2.dev.disk
        = putBlocks image remain src dest io.dev.disk := by
  induction k generalizing src dest remain io with
  | zero =>
    obtain rfl : remain = 0 := by omega
    exact ⟨hscript, rfl⟩
  | succ k ih =>
    rw [copyRounds] at hon ⊢
    generalize hw : storageWriteLba target dest (min remain 32) image src io = w at hon ⊢
    have hall : ∀ e ∈ w.2.events, e.OnMedium := by
      intro e he
      split at hon
      · exact hon e ((copyRounds_appends ..).subset he)
      · exact hon e he
    obtain ⟨hok, hscript', hdisk⟩ := storageWriteLba_put hscript (by omega) (hw ▸ hall)
    rw [hw] at hok hscript' hdisk
    rw [if_pos hok] at hon ⊢
    obtain ⟨hscript'', hdisk'⟩ := ih (by omega) hscript' hon
    refine ⟨hscript'', ?_⟩
    rw [hdisk', hdisk, ← putBlocks_add]
    congr 1
    omega

theorem rkloaderCopyMemory2Flash_put (hn : n < 2 ^ 32)
    (hscript : io.dev.script = [])
    (hon : ∀ e ∈ (rkloaderCopyMemory2Flash target image src dest n io).2.events, e.OnMedium) :
    (rkloaderCopyMemory2Flash target image src dest n io).2.dev.script = [] ∧
      (rkloaderCopyMemory2Flash target image src dest n io).2.dev.disk
        = putBlocks image n src dest io.dev.disk := by
  unfold rkloaderCopyMemory2Flash at hon ⊢
  rw [toU32_natCast hn] at hon ⊢
  exact copyRounds_put _ (by omega) hscript hon

/-- The chunk loop of `unsparse`, if it succeeds, found good chunks and applied them. -/
theorem unsparseChunks_apply (k : Nat)
    (hok : (unsparseChunks target image blkSz sectionSize k source sector outlen io).1 = true)
    (hraw : RawBelow image blkSz k source) (hscript : io.dev.script = [])
    (hon : ∀ e ∈ (unsparseChunks target image blkSz sectionSize k source sector outlen io).2.events,
      e.OnMedium) :
    ChunksGood image blkSz k source ∧
      (unsparseChunks target image blkSz sectionSize k source sector outlen io).2.dev.disk
        = applyChunks image blkSz k source sector io.dev.disk := by
  induction k generalizing source sector outlen io with
  | zero => exact ⟨trivial, rfl⟩
  | succ k ih =>
    have hmod : ∀ n, (sector + n) % 2 ^ 64 % 2 ^ 32 = (sector + n) % 2 ^ 32 := fun n => by omega
    rw [RawBelow] at hraw
    rw [unsparseChunks_round] at hok hon ⊢
    simp only at hok hon ⊢
    split at hok
    · next htaken =>
      obtain ⟨hisRaw, -⟩ := id htaken
      rw [if_pos htaken] at hon ⊢
      split at hok
      · next hcopy =>
        rw [if_pos hcopy] at hon ⊢
        rw [if_pos hisRaw] at hraw
        have hblocks : chunkLen image blkSz source / 512 < 2 ^ 32 := by
          omega
        obtain ⟨hscript', hdisk⟩ := rkloaderCopyMemory2Flash_put hblocks hscript
          (fun e he => hon e ((unsparseChunks_appends ..).subset he))
        obtain ⟨hgood, hrest⟩ := ih hok hraw.2 hscript' hon
        refine ⟨.inl ⟨hisRaw, hraw.1, hgood⟩, ?_⟩
        rw [hrest, hdisk, applyChunks_mod k (hmod _)]
        simp only [applyChunks, if_pos hisRaw]
      · cases hok
    · next hnot =>
      rw [if_neg hnot] at hon ⊢
      split at hok
      · next hskip =>
        have hnotRaw : ¬ IsRaw image blkSz source := fun hisRaw => hnot ⟨hisRaw, hskip.2⟩
        rw [if_pos hskip] at hon ⊢
        rw [if_neg hnotRaw] at hraw
        obtain ⟨hgood, hrest⟩ := ih hok hraw hscript hon
        refine ⟨.inr ⟨hskip.1, hgood⟩, ?_⟩
        rw [hrest, applyChunks_mod k (hmod _)]
        simp only [applyChunks, if_neg hnotRaw]
      · cases hok

/-- An image that `unsparse` stores has a good header and good chunks, and these are what is stored. -/
theorem unsparse_apply {sizeKb : Nat}
    (hok : (unsparse target image sector sizeKb io).1 = true)
    (hraw : RawBelow image (sparseBlkSz image) (sparseTotalChunks image) 28)
    (hscript : io.dev.script = [])
    (hon : ∀ e ∈ (unsparse target image sector sizeKb io).2.events, e.OnMedium) :
    IsSparse image ∧ ChunksGood image (sparseBlkSz image) (sparseTotalChunks image) 28 ∧
      (unsparse target image sector sizeKb io).2.dev.disk
        = applyChunks image (sparseBlkSz image) (sparseTotalChunks image) 28 sector io.dev.disk := by
  rw [unsparse_eq] at hok hon ⊢
  split at hok
  · next hheader =>
    rw [if_pos hheader] at hon ⊢
    exact ⟨hheader.1, unsparseChunks_apply _ hok hraw hscript hon⟩
  · cases hok

end Unsparse

end Fastboot
