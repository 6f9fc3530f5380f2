import RkUboot.Lib.Mem

set_option autoImplicit false

/-! # Writing the ID blocks (`rkloader/idblock.c`)

The boot ROM finds the loader in one of several copies, the ID blocks. `WriteXIDBlock` replaces them
one after the other: erase, write 20 sectors at a time, read back, compare. A block that fails is tried
once more, but the toggle for that is shared by all blocks; and the loop stops when only one block has
not failed, so that one old copy is left.

The results of the storage operations are given by a script, as arbitrary as they can be: an erase or a
write leaves its sectors in any state, whether it reports an error or success, and a read may deliver
anything. `log` has every operation with what it reported, and the contents of the flash after it; that
a block was verified is said of the log. -/

namespace IdBlock

/-! ## The storage -/

/-- The 512 data bytes of a sector. -/
abbrev Sector := List UInt8

/-- How a storage operation ends. -/
inductive Result where
  | ok
  /-- An error; the sectors concerned are left in this state. -/
  | fail (left : Nat → Sector)
  /-- Reported as success; but an erase or a write leaves this behind, or a read delivers it. -/
  | corrupt (got : Nat → Sector)

/-- An operation, and what it reported. -/
inductive Op where
  | erase (addr : Nat) (ok : Bool)
  | write (pba : Nat) (data : List Sector) (ok : Bool)
  | read (pba : Nat) (got : Option (List Sector))

structure Entry where
  op : Op
  /-- The flash after the operation. -/
  flash : Nat → Sector

structure Io where
  /-- The sectors, by their physical number. -/
  flash : Nat → Sector
  script : List Result
  /-- The operations so far, in order. -/
  log : List Entry

/-- Replace the `n` sectors from `pba` on. -/
def put (flash : Nat → Sector) (pba n : Nat) (s : Nat → Sector) : Nat → Sector :=
  fun x => if pba ≤ x ∧ x < pba + n then s x else flash x

namespace Io

def next (io : Io) : Result := io.script.headD .ok

/-- The operation is over, with these contents of the flash. -/
def finish (io : Io) (op : Op) (flash : Nat → Sector) : Io :=
  ⟨flash, io.script.tail, io.log ++ [⟨op, flash⟩]⟩

end Io

/-- `StorageEraseBlock` of one block. -/
def storageEraseBlock (blockSize addr : Nat) (io : Io) : Bool × Io :=
  let left := put io.flash (addr * blockSize) blockSize
  match io.next with
  | .ok => (true, io.finish (.erase addr true) (left (fun _ => List.replicate 512 255)))
  | .fail s => (false, io.finish (.erase addr false) (left s))
  | .corrupt s => (true, io.finish (.erase addr true) (left s))

/-- `StorageWritePba` of the sectors `data`. -/
def storageWritePba (pba : Nat) (data : List Sector) (io : Io) : Bool × Io :=
  let left := put io.flash pba data.length
  match io.next with
  | .ok => (true, io.finish (.write pba data true) (left (fun x => data.getD (x - pba) [])))
  | .fail s => (false, io.finish (.write pba data false) (left s))
  | .corrupt s => (true, io.finish (.write pba data true) (left s))

/-- `StorageReadPba` of `n` sectors, unless there is an error. -/
def storageReadPba (pba n : Nat) (io : Io) : Option (List Sector) × Io :=
  let got := match io.next with
    | .ok => some ((List.range n).map (fun i => io.flash (pba + i)))
    | .fail _ => none
    | .corrupt s => some ((List.range n).map s)
  (got, io.finish (.read pba got) io.flash)

/-! ## The loop -/

/-- The arguments of `WriteXIDBlock`, and `g_id_block_size`. -/
structure Job where
  /-- `pSysBlockAddr`, of length `iIDBCount`. -/
  addrs : List UInt16
  blockSize : UInt32
  idBlockData : Mem
  uiIdSectorNum : UInt32

namespace Job

variable (job : Job)

/-- `iIDBCount`. -/
def count : Nat := job.addrs.length

/-- The number of sectors of the new data. -/
def num : Nat := job.uiIdSectorNum.toNat

def addr (i : Nat) : Nat := (job.addrs.getD i 0).toNat

/-- `sysSectorAddr` of the block with index `i`. -/
def base (i : Nat) : Nat := job.addr i * job.blockSize.toNat % 2 ^ 32

/-- Sector `j` of the new data; a sector takes 528 bytes in memory. -/
def sector (j : Nat) : Sector := job.idBlockData.bytes (528 * j) 512

/-- `n` sectors of the new data from `MAX_WRITE_SECTOR * c` on. -/
def chunk (c n : Nat) : List Sector := (List.range n).map (fun i => job.sector (c * 20 + i))

end Job

/-- The `while` loop of `WriteXIDBlock`, `k` rounds to go. What is read back has to be what was written. -/
def writeSectors (job : Job) (base : Nat) : Nat → Nat → Nat → Io → Bool × Io
  | 0, _, _, io => (true, io)
  | k + 1, need, iCount, io =>
    let n := if 20 < need then 20 else need
    let pba := (base + iCount * 20) % 2 ^ 32
    let data := job.chunk iCount n
    let w := storageWritePba pba data io
    if w.1 = false then (false, w.2)
    else
      let r := storageReadPba pba n w.2
      if r.1 = some data then writeSectors job base k (need - n) (iCount + 1) r.2 else (false, r.2)

/-- One round of the `for` loop: the block with index `i`. -/
def writeBlock (job : Job) (i : Nat) (io : Io) : Bool × Io :=
  let e := storageEraseBlock job.blockSize.toNat (job.addr i) io
  if e.1 then writeSectors job (job.base i) ((job.num + 19) / 20) job.num 0 e.2 else (false, e.2)

/-- The variables of the `for` loop. -/
structure Loop where
  i : Nat
  writeFailed : Nat
  retry : Bool
  /-- The blocks that were reported as "write complete", the newest first. -/
  complete : List Nat
  io : Io

/-- The condition of the `for` loop. -/
def Loop.Running (job : Job) (s : Loop) : Prop := s.i < job.count ∧ 1 < job.count - s.writeFailed
  deriving Decidable

/-- One round with its `i++`, which takes back the `--i` of a retry. -/
def Loop.round (job : Job) (s : Loop) : Loop :=
  let r := writeBlock job s.i s.io
  if r.1 then { s with i := s.i + 1, complete := s.i :: s.complete, io := r.2 }
  else if s.retry = false then { s with retry := true, io := r.2 }
  else { s with i := s.i + 1, retry := false, writeFailed := s.writeFailed + 1, io := r.2 }

/-- The `for` loop, cut off after `k` rounds. -/
def Loop.run (job : Job) : Nat → Loop → Option Loop
  | 0, s => if s.Running job then none else some s
  | k + 1, s => if s.Running job then (s.round job).run job k else some s

/-- The variables at the start. -/
def Loop.start (io : Io) : Loop := ⟨0, 0, false, [], io⟩

/-- Model of `WriteXIDBlock`: its result and the storage. There is no value if the loop is not over
    after `2 * iIDBCount + 1` rounds. -/
def writeXIDBlock (job : Job) (io : Io) : Option (Bool × Io) :=
  (Loop.run job (2 * job.count + 1) (Loop.start io)).map (fun s => (decide (s.i = job.count), s.io))

/-! ## What a block holds -/

/-- The physical number of sector `y` of the data from `base` on: the number of the first sector of a
    write has 32 bits. -/
def sectorAt (base y : Nat) : Nat := (base + y / 20 * 20) % 2 ^ 32 + y % 20

/-- The flash has the `n` sectors `data` from `base` on. -/
def Holds (flash : Nat → Sector) (base n : Nat) (data : Nat → Sector) : Prop :=
  ∀ y < n, flash (sectorAt base y) = data y

instance (flash : Nat → Sector) (base n : Nat) (data : Nat → Sector) :
    Decidable (Holds flash base n data) :=
  inferInstanceAs (Decidable (∀ y < n, _))

/-- What the log has of one chunk: it is written, and read back equal. -/
def Job.part (job : Job) (base c : Nat) : List Op :=
  let pba := (base + c * 20) % 2 ^ 32
  let data := job.chunk c (min (job.num - c * 20) 20)
  [.write pba data true, .read pba (some data)]

/-- What the log has of a block that is completely written and verified. -/
def Job.transcript (job : Job) (i : Nat) : List Op :=
  .erase (job.addr i) true ::
    (List.range' 0 ((job.num + 19) / 20)).flatMap (job.part (job.base i))

/-- The block with index `i` was completely written and verified. -/
def Verified (job : Job) (i : Nat) (log : List Entry) : Prop :=
  job.transcript i <:+: log.map Entry.op

/-- What is read back as it was written is what the flash has. So it is if a write that reports success
    stores its sectors; and it need not be if both the write and the read go wrong. -/
def Honest (log : List Entry) : Prop :=
  ∀ pba data flash flash',
    [⟨.write pba data true, flash⟩, ⟨.read pba (some data), flash'⟩] <:+: log →
      ∀ j (h : j < data.length), flash (pba + j) = data[j]

/-- The old data. -/
structure Old where
  num : Nat
  sector : Nat → Sector

/-- Some block holds all of the old or all of the new data. -/
def Bootable (job : Job) (old : Old) (flash : Nat → Sector) : Prop :=
  ∃ i < job.count, Holds flash (job.base i) old.num old.sector ∨
    Holds flash (job.base i) job.num job.sector

instance (job : Job) (old : Old) (flash : Nat → Sector) : Decidable (Bootable job old flash) :=
  inferInstanceAs (Decidable (∃ i < _, _))

/-- Sectors that are erased or written for the block with index `i`. -/
def Job.Touches (job : Job) (i x : Nat) : Prop :=
  job.addr i * job.blockSize.toNat ≤ x ∧ x < job.addr i * job.blockSize.toNat + job.blockSize.toNat ∨
    ∃ y < job.num, x = sectorAt (job.base i) y

/-- Work on one block does not touch the old or the new data of another. -/
def Job.Apart (job : Job) (old : Old) : Prop :=
  ∀ i < job.count, ∀ j < job.count, i ≠ j →
    ∀ y < max old.num job.num, ¬ job.Touches i (sectorAt (job.base j) y)

theorem sectorAt_inj {base x y : Nat} (hx : x < 2 ^ 32) (hy : y < 2 ^ 32)
    (h : sectorAt base x = sectorAt base y) : x = y := by
  unfold sectorAt at h
  omega

theorem sectorAt_chunk (base c : Nat) {i : Nat} (hi : i < 20) :
    sectorAt base (c * 20 + i) = (base + c * 20) % 2 ^ 32 + i := by
  have hdiv : (c * 20 + i) / 20 = c := by omega
  have hmod : (c * 20 + i) % 20 = i := by omega
  rw [sectorAt, hdiv, hmod]

theorem put_apply_out (flash s : Nat → Sector) {pba n x : Nat} (h : ¬ (pba ≤ x ∧ x < pba + n)) :
    put flash pba n s x = flash x := if_neg h

/-! ## Frame -/

/-- From `io` to `io'` only sectors in `P` change, at every moment, and the log goes on with `new`. -/
def Within (P : Nat → Prop) (io io' : Io) (new : List Entry) : Prop :=
  io'.log = io.log ++ new ∧ (∀ x, ¬ P x → io'.flash x = io.flash x) ∧
    ∀ e ∈ new, ∀ x, ¬ P x → e.flash x = io.flash x

section Frame

variable {P : Nat → Prop} {io io' io'' : Io} {new new' : List Entry}

theorem Within.refl (io : Io) : Within P io io [] :=
  ⟨(List.append_nil _).symm, fun _ _ => rfl, fun _ he => absurd he List.not_mem_nil⟩

theorem Within.trans (h : Within P io io' new) (h' : Within P io' io'' new') :
    Within P io io'' (new ++ new') := by
  obtain ⟨hlog, hflash, hall⟩ := h
  obtain ⟨hlog', hflash', hall'⟩ := h'
  refine ⟨?_, fun x hx => (hflash' x hx).trans (hflash x hx), fun e he x hx => ?_⟩
  · rw [hlog', hlog, List.append_assoc]
  · rcases List.mem_append.1 he with he | he
    · exact hall e he x hx
    · exact (hall' e he x hx).trans (hflash x hx)

theorem Within.mono {Q : Nat → Prop} (h : Within P io io' new) (hPQ : ∀ x, P x → Q x) :
    Within Q io io' new :=
  ⟨h.1, fun x hx => h.2.1 x (fun hP => hx (hPQ x hP)),
    fun e he x hx => h.2.2 e he x (fun hP => hx (hPQ x hP))⟩

theorem within_finish {flash : Nat → Sector} (op : Op) (h : ∀ x, ¬ P x → flash x = io.flash x) :
    Within P io (io.finish op flash) [⟨op, flash⟩] := by
  refine ⟨rfl, h, fun e he => ?_⟩
  rw [List.mem_singleton.1 he]
  exact h

theorem within_put {pba n : Nat} (op : Op) (s : Nat → Sector)
    (h : ∀ x, pba ≤ x → x < pba + n → P x) :
    Within P io (io.finish op (put io.flash pba n s)) [⟨op, put io.flash pba n s⟩] :=
  within_finish op (fun x hx => put_apply_out _ _ (fun hin => hx (h x hin.1 hin.2)))

theorem storageEraseBlock_within (blockSize addr : Nat)
    (h : ∀ x, addr * blockSize ≤ x → x < addr * blockSize + blockSize → P x) :
    Within P io (storageEraseBlock blockSize addr io).2
      [⟨.erase addr (storageEraseBlock blockSize addr io).1,
        (storageEraseBlock blockSize addr io).2.flash⟩] := by
  unfold storageEraseBlock
  split <;> exact within_put _ _ h

theorem storageWritePba_within {pba : Nat} (data : List Sector)
    (h : ∀ x, pba ≤ x → x < pba + data.length → P x) :
    Within P io (storageWritePba pba data io).2
      [⟨.write pba data (storageWritePba pba data io).1, (storageWritePba pba data io).2.flash⟩] := by
  unfold storageWritePba
  split <;> exact within_put _ _ h

theorem storageReadPba_within (io : Io) (pba n : Nat) :
    Within P io (storageReadPba pba n io).2 [⟨.read pba (storageReadPba pba n io).1, io.flash⟩] :=
  within_finish _ (fun _ _ => rfl)

/-- A shorter log has no more to be honest about. -/
theorem Honest.of_infix {log log' : List Entry} (h : Honest log') (hin : log <:+: log') :
    Honest log :=
  fun pba data flash flash' hpair => h pba data flash flash' (hpair.trans hin)

/-- With writes that store what they report, the log is honest whatever is read. -/
theorem honest_of_stored {log : List Entry}
    (h : ∀ e ∈ log, ∀ pba data, e.op = .write pba data true →
      ∀ j (hj : j < data.length), e.flash (pba + j) = data[j]) : Honest log :=
  fun pba data _ _ hpair => h _ (hpair.mem (.head _)) pba data rfl

end Frame

/-! ## One block -/

section Block

variable (job : Job)

variable (base : Nat) (io : Io)

/-- Sectors of the new data from chunk `c` on. -/
def FromChunk (c x : Nat) : Prop := ∃ y, c * 20 ≤ y ∧ y < job.num ∧ x = sectorAt base y

/-- None of the operations is an erase. -/
def NoErase (new : List Entry) : Prop := ∀ e ∈ new, ∀ addr ok, e.op ≠ .erase addr ok

/-- What one round of the inner loop does: it fails, or the chunk is read back equal and the loop goes
    on. -/
theorem writeSectors_succ (k c : Nat) :
    ∃ io' new, Within (FromChunk job base c) io io' new ∧ NoErase new ∧
      ((writeSectors job base (k + 1) (job.num - c * 20) c io = (false, io') ∧
          ¬ job.part base c <+: new.map Entry.op) ∨
        (writeSectors job base (k + 1) (job.num - c * 20) c io
            = writeSectors job base k (job.num - (c + 1) * 20) (c + 1) io' ∧
          new.map Entry.op = job.part base c ∧
          (Honest io'.log → ∀ y, c * 20 ≤ y → y < job.num → y < (c + 1) * 20 →
            io'.flash (sectorAt base y) = job.sector y))) := by
  have hneed : job.num - c * 20 - min (job.num - c * 20) 20
      = job.num - (c + 1) * 20 := by omega
  have hn : (if 20 < job.num - c * 20 then 20 else job.num - c * 20)
      = min (job.num - c * 20) 20 := by
    split <;> omega
  rw [writeSectors, Job.part]
  simp only [hn, hneed]
  have hsector : ∀ i < 20, sectorAt base (c * 20 + i) = (base + c * 20) % 2 ^ 32 + i :=
    fun i hi => sectorAt_chunk base c hi
  have hget : ∀ i (hi : i < (job.chunk c (min (job.num - c * 20) 20)).length),
      (job.chunk c (min (job.num - c * 20) 20))[i] = job.sector (c * 20 + i) := by
    simp [Job.chunk]
  have hlen : (job.chunk c (min (job.num - c * 20) 20)).length
      = min (job.num - c * 20) 20 := by simp [Job.chunk]
  generalize job.chunk c (min (job.num - c * 20) 20) = data at hlen hget
  generalize (base + c * 20) % 2 ^ 32 = pba at hsector
  have hwrite : Within (FromChunk job base c) io (storageWritePba pba data io).2 _ :=
    storageWritePba_within data (fun x hlo hhi => by
      obtain ⟨i, rfl⟩ := Nat.exists_eq_add_of_le hlo
      exact ⟨c * 20 + i, by omega, by omega, (hsector i (by omega)).symm⟩)
  generalize storageWritePba pba data io = w at hwrite
  by_cases hok : w.1 = false
  · rw [if_pos hok]
    exact ⟨w.2, _, hwrite, by simp [NoErase], .inl ⟨rfl, by simp [hok]⟩⟩
  rw [if_neg hok]
  rw [Bool.not_eq_false] at hok
  have hread := hwrite.trans (storageReadPba_within w.2 pba (min (job.num - c * 20) 20))
  have hflash : (storageReadPba pba (min (job.num - c * 20) 20) w.2).2.flash
      = w.2.flash := rfl
  generalize storageReadPba pba (min (job.num - c * 20) 20) w.2 = r at hread hflash
  refine ⟨r.2, _, hread, by simp [NoErase], ?_⟩
  by_cases hgot : r.1 = some data
  · rw [if_pos hgot]
    refine .inr ⟨rfl, by simp [hok, hgot], fun hhonest y hlo hnum hhi => ?_⟩
    obtain ⟨i, rfl⟩ := Nat.exists_eq_add_of_le hlo
    have hi : i < data.length := by omega
    rw [hread.1, hok, hgot] at hhonest
    rw [hsector i (by omega), ← hget i hi, hflash]
    exact hhonest _ _ _ _ (List.suffix_append _ _).isInfix i hi
  · rw [if_neg hgot]
    exact .inl ⟨rfl, by simp [hok, Ne.symm hgot]⟩

/-- The inner loop stays in its sectors. It succeeds exactly if every chunk was read back equal, and
    then the sectors hold the data, if the log is honest. -/
theorem writeSectors_spec (k c : Nat) (hk : job.num - c * 20 ≤ 20 * k) (io : Io) :
    ∃ ret io' new,
      writeSectors job base k (job.num - c * 20) c io = (ret, io') ∧
      Within (FromChunk job base c) io io' new ∧ NoErase new ∧
      (ret = true → new.map Entry.op = (List.range' c k).flatMap (job.part base)) ∧
      ((List.range' c k).flatMap (job.part base) <+: new.map Entry.op → ret = true) ∧
      (ret = true → Honest io'.log → ∀ y, c * 20 ≤ y → y < job.num →
        io'.flash (sectorAt base y) = job.sector y) := by
  induction k generalizing c io with
  | zero =>
    refine ⟨true, io, [], rfl, .refl io, by simp [NoErase], fun _ => rfl, fun _ => rfl, ?_⟩
    intro _ _ y hlo hhi
    omega
  | succ k ih =>
    obtain ⟨io', new, hwithin, herase, ⟨hfail, hpart⟩ | ⟨hrest, hpart, hstored⟩⟩ :=
      writeSectors_succ job base io k c
    · refine ⟨false, io', new, hfail, hwithin, herase, nofun, fun h => absurd ?_ hpart, nofun⟩
      exact (List.prefix_append _ _).trans h
    obtain ⟨ret, io'', new', hrun, hwithin', herase', hops, hret, hverified⟩ :=
      ih (c + 1) (by omega) io'
    have hmono : ∀ x, FromChunk job base (c + 1) x → FromChunk job base c x := by
      rintro x ⟨y, hlo, hhi, rfl⟩
      exact ⟨y, by omega, hhi, rfl⟩
    refine ⟨ret, io'', new ++ new', hrest.trans hrun, hwithin.trans (hwithin'.mono hmono),
      List.forall_mem_append.2 ⟨herase, herase'⟩, fun h => ?_, fun h => ?_, fun h hhonest y hlo hhi => ?_⟩
    · rw [List.map_append, hpart, hops h, List.range'_succ, List.flatMap_cons]
    · rw [List.map_append, hpart, List.range'_succ, List.flatMap_cons,
        List.prefix_append_right_inj] at h
      exact hret h
    · by_cases hfirst : y < (c + 1) * 20
      · -- later chunks have other sectors
        have hlt : job.num < 2 ^ 32 := job.uiIdSectorNum.toNat_lt
        rw [hwithin'.2.1 _ ?_]
        · refine hstored (hhonest.of_infix ?_) y hlo hhi hfirst
          rw [hwithin'.1]
          exact (List.prefix_append _ _).isInfix
        · rintro ⟨y', hlo', hhi', heq⟩
          have := sectorAt_inj (by omega) (by omega) heq
          omega
      · exact hverified h hhonest y (by omega) hhi

/-- Work on a block stays in its sectors. It succeeds exactly if the block was verified, and then the
    block holds the new data, if the log is honest. -/
theorem writeBlock_spec (i : Nat) :
    ∃ new, Within (job.Touches i) io (writeBlock job i io).2 new ∧
      (∃ ok flash rest, new = ⟨.erase (job.addr i) ok, flash⟩ :: rest ∧ NoErase rest) ∧
      ((writeBlock job i io).1 = true → new.map Entry.op = job.transcript i) ∧
      (∀ j, job.transcript j <+: new.map Entry.op →
        (writeBlock job i io).1 = true ∧ job.addr j = job.addr i) ∧
      ((writeBlock job i io).1 = true → Honest (writeBlock job i io).2.log →
        Holds (writeBlock job i io).2.flash (job.base i) job.num job.sector) := by
  have herase : Within (job.Touches i) io
      (storageEraseBlock job.blockSize.toNat (job.addr i) io).2 _ :=
    storageEraseBlock_within _ _ (fun x hlo hhi => .inl ⟨hlo, hhi⟩)
  unfold writeBlock
  generalize storageEraseBlock job.blockSize.toNat (job.addr i) io = e at herase
  have hhead : ∀ j ok ops, job.transcript j <+: .erase (job.addr i) ok :: ops →
      ok = true ∧ job.addr j = job.addr i := by
    intro j ok ops h
    obtain ⟨heq, -⟩ := List.cons_prefix_cons.1 h
    obtain ⟨haddr, hok⟩ := Op.erase.inj heq
    exact ⟨hok.symm, haddr⟩
  by_cases hok : e.1 = true
  · rw [if_pos hok]
    obtain ⟨ret, io', new, hrun, hwithin, hnoerase, hops, hret, hverified⟩ :=
      writeSectors_spec job (job.base i) ((job.num + 19) / 20) 0 (by omega) e.2
    rw [Nat.zero_mul, Nat.sub_zero] at hrun
    rw [hrun]
    refine ⟨_, herase.trans (hwithin.mono ?_), ⟨_, _, _, rfl, hnoerase⟩, fun h => ?_, fun j h => ?_,
      fun h hhonest y hy => hverified h hhonest y (by omega) hy⟩
    · rintro x ⟨y, -, hhi, rfl⟩
      exact .inr ⟨y, hhi, rfl⟩
    · rw [List.map_append, hops h, hok]
      rfl
    · rw [List.map_append] at h
      obtain ⟨-, haddr⟩ := hhead j _ _ h
      rw [Job.transcript, Job.base, haddr] at h
      exact ⟨hret (List.cons_prefix_cons.1 h).2, haddr⟩
  · rw [if_neg hok]
    refine ⟨_, herase, ⟨_, _, [], rfl, by simp [NoErase]⟩, nofun, fun j h => ?_, nofun⟩
    exact absurd (hhead j _ _ h).1 hok

end Block

/-! ## Safety -/

/-- A list that begins with a mark and has no other stands inside `xs ++ ys`, where `ys` is such a list
    as well: it does not reach over the seam. -/
theorem infix_append_of_mark {α : Type} (Mark : α → Prop) {a b : α} {t xs ys : List α} (ha : Mark a)
    (hb : Mark b) (ht : ∀ x ∈ t, ¬ Mark x) (hys : ∀ x ∈ ys, ¬ Mark x)
    (h : a :: t <:+: xs ++ b :: ys) : a :: t <:+: xs ∨ a :: t <+: b :: ys := by
  obtain ⟨l, r, heq⟩ := h
  rw [List.append_assoc] at heq
  rcases List.append_eq_append_iff.1 heq with ⟨m, rfl, hm⟩ | ⟨m, rfl, hm⟩
  · -- it begins in `xs`
    cases m with
    | nil => exact .inr ⟨r, hm⟩
    | cons c m =>
      obtain ⟨rfl, htail⟩ := List.cons.inj hm
      rcases List.append_eq_append_iff.1 (show t ++ r = m ++ b :: ys from htail) with
        ⟨m', rfl, -⟩ | ⟨m', rfl, hm'⟩
      · exact .inl ⟨l, m', by simp⟩
      · cases m' with
        | nil => exact .inl ⟨l, [], by simp⟩
        | cons d m' =>
          obtain ⟨rfl, -⟩ := List.cons.inj hm'
          exact absurd hb (ht b (by simp))
  · cases m with
    | nil => exact .inr ⟨r, hm.symm⟩
    | cons d m =>
      obtain ⟨-, rfl⟩ := List.cons.inj hm
      exact absurd ha (hys a (by simp))

section Loop

variable {job : Job} {old : Old}

/-- What holds before every round. -/
structure Loop.Inv (job : Job) (old : Old) (s : Loop) : Prop where
  le : s.i ≤ job.count
  failed : s.writeFailed + 1 ≤ job.count
  /-- Every block before `i` is complete or has failed. -/
  account : s.complete.length + s.writeFailed = s.i
  verified : ∀ j ∈ s.complete, j < s.i ∧ Verified job j s.io.log
  only : ∀ j, Verified job j s.io.log → ∃ j' ∈ s.complete, job.addr j = job.addr j'
  /-- The blocks behind `i` are untouched. -/
  behind : ∀ j, s.i < j → j < job.count → Holds s.io.flash (job.base j) old.num old.sector
  new : Honest s.io.log → ∀ j ∈ s.complete,
    Holds s.io.flash (job.base j) job.num job.sector
  safe : Honest s.io.log → ∀ e ∈ s.io.log, Bootable job old e.flash

theorem Job.Apart.holds (h : job.Apart old) {i j : Nat} (hi : i < job.count) (hj : j < job.count)
    (hne : i ≠ j) {f f' : Nat → Sector} (hf : ∀ x, ¬ job.Touches i x → f' x = f x) {n : Nat}
    (hn : n ≤ max old.num job.num) {data : Nat → Sector}
    (hold : Holds f (job.base j) n data) : Holds f' (job.base j) n data := by
  intro y hy
  rw [hf _ (h i hi j hj hne y (by omega))]
  exact hold y hy

/-- While a block is being written there is another one to boot from: an old one behind it, or, for
    the last block, a new one. -/
theorem Loop.Inv.bootable {s : Loop} (h : s.Inv job old) (hhonest : Honest s.io.log)
    (hrun : s.Running job) (hapart : job.Apart old) {f : Nat → Sector}
    (hf : ∀ x, ¬ job.Touches s.i x → f x = s.io.flash x) : Bootable job old f := by
  obtain ⟨hlt, hleft⟩ := hrun
  by_cases hlast : s.i + 1 < job.count
  · exact ⟨job.count - 1, by omega, .inl (hapart.holds hlt (by omega) (by omega) hf (by omega)
      (h.behind _ (by omega) (by omega)))⟩
  · have haccount := h.account
    obtain ⟨j, hj⟩ : ∃ j, j ∈ s.complete :=
      List.exists_mem_of_length_pos (by omega)
    have hji := (h.verified j hj).1
    exact ⟨j, by omega, .inr (hapart.holds hlt (by omega) (by omega) hf (by omega)
      (h.new hhonest j hj))⟩

/-- A block that was verified stays so. -/
theorem Verified.append {i : Nat} {log : List Entry} (h : Verified job i log) (new : List Entry) :
    Verified job i (log ++ new) := by
  unfold Verified
  rw [List.map_append]
  exact h.trans (List.prefix_append _ _).isInfix

theorem Job.transcript_eq (job : Job) (i : Nat) : ∃ rest, job.transcript i
    = .erase (job.addr i) true :: rest ∧ ∀ op ∈ rest, ∀ addr ok, op ≠ .erase addr ok := by
  refine ⟨_, rfl, fun op hop => ?_⟩
  obtain ⟨c, -, hc⟩ := List.mem_flatMap.1 hop
  rcases List.mem_pair.1 hc with rfl | rfl <;> exact nofun

/-- **One round.** -/
theorem Loop.Inv.round {s : Loop} (h : s.Inv job old) (hrun : s.Running job)
    (hapart : job.Apart old) : (s.round job).Inv job old := by
  have hspec := writeBlock_spec job s.io s.i
  unfold Loop.round
  simp only
  generalize writeBlock job s.i s.io = r at hspec ⊢
  obtain ⟨new, ⟨hlog, hflash, hall⟩, ⟨ok, flash, rest, hnew, hnoerase⟩, htranscript, hret, hholds⟩ :=
    hspec
  have hlt := hrun.1
  have hleft := hrun.2
  have haccount := h.account
  have hbefore : Honest r.2.log → Honest s.io.log := fun hhonest =>
    hhonest.of_infix (hlog ▸ (List.prefix_append _ _).isInfix)
  have hsafe : Honest r.2.log → ∀ e ∈ r.2.log, Bootable job old e.flash := by
    intro hhonest e he
    rw [hlog] at he
    rcases List.mem_append.1 he with he | he
    · exact h.safe (hbefore hhonest) e he
    · exact h.bootable (hbefore hhonest) hrun hapart (hall e he)
  have hkept : Honest r.2.log → ∀ j ∈ s.complete,
      Holds r.2.flash (job.base j) job.num job.sector := by
    intro hhonest j hj
    have hji := (h.verified j hj).1
    exact hapart.holds hlt (by omega) (by omega) hflash (by omega) (h.new (hbefore hhonest) j hj)
  have hverified : ∀ j ∈ s.complete, j < s.i ∧ Verified job j r.2.log := by
    intro j hj
    rw [hlog]
    exact ⟨(h.verified j hj).1, (h.verified j hj).2.append new⟩
  have honly : ∀ j, Verified job j r.2.log →
      (∃ j' ∈ s.complete, job.addr j = job.addr j') ∨ r.1 = true ∧ job.addr j = job.addr s.i := by
    intro j hj
    obtain ⟨t, ht, hmark⟩ := job.transcript_eq j
    rw [Verified, hlog, List.map_append, hnew, List.map_cons, ht] at hj
    rcases infix_append_of_mark (fun op => ∃ addr ok, op = .erase addr ok) ⟨_, _, rfl⟩
      ⟨_, _, rfl⟩ (by simpa using hmark) (by simpa [NoErase] using hnoerase) hj with hin | hin
    · exact .inl (h.only j (by rw [Verified, ht]; exact hin))
    · exact .inr (hret j (by rw [ht, hnew]; exact hin))
  have hbehind : ∀ j, s.i < j → j < job.count →
      Holds r.2.flash (job.base j) old.num old.sector := by
    intro j hj hj'
    exact hapart.holds hlt hj' (by omega) hflash (by omega) (h.behind j hj hj')
  split
  · next hok =>
    have hdone : Verified job s.i r.2.log := by
      rw [Verified, hlog, List.map_append, htranscript hok]
      exact (List.suffix_append _ _).isInfix
    refine ⟨hlt, h.failed, by simp only [List.length_cons]; omega, fun j hj => ?_, fun j hj => ?_,
      fun j hj => hbehind j (Nat.lt_of_succ_lt hj), fun hhonest j hj => ?_, hsafe⟩
    · rcases List.mem_cons.1 hj with rfl | hj
      · exact ⟨Nat.lt_succ_self _, hdone⟩
      · exact ⟨Nat.lt_succ_of_lt (hverified j hj).1, (hverified j hj).2⟩
    · rcases honly j hj with ⟨j', hj', haddr⟩ | ⟨-, haddr⟩
      · exact ⟨j', .tail _ hj', haddr⟩
      · exact ⟨s.i, .head _, haddr⟩
    · rcases List.mem_cons.1 hj with rfl | hj
      · exact hholds hok hhonest
      · exact hkept hhonest j hj
  next hok =>
  have honly' := fun j hj => (honly j hj).resolve_right (fun hdone => hok hdone.1)
  split
  · exact ⟨h.le, h.failed, haccount, hverified, honly', hbehind, hkept, hsafe⟩
  · exact ⟨hlt, by simp only; omega, by simp only; omega,
      fun j hj => ⟨Nat.lt_succ_of_lt (hverified j hj).1, (hverified j hj).2⟩, honly',
      fun j hj => hbehind j (Nat.lt_of_succ_lt hj), hkept, hsafe⟩

/-- Rounds that are left at most: two for a block, one less once the retry is used. -/
def Loop.rank (job : Job) (s : Loop) : Nat := 2 * (job.count - s.i) + if s.retry then 0 else 1

theorem Loop.rank_round {s : Loop} (hrun : s.Running job) :
    (s.round job).rank job < s.rank job := by
  have hlt := hrun.1
  unfold Loop.round Loop.rank
  simp only
  split
  · simp only
    omega
  · split
    · next hretry =>
      simp only [hretry, if_true, Bool.false_eq_true, if_false]
      omega
    · next hretry =>
      simp only [hretry, if_true, Bool.false_eq_true, if_false]
      omega

/-- The loop ends, and what its rounds preserve holds there. -/
theorem Loop.run_invariant {I : Loop → Prop} (hI : ∀ s, I s → s.Running job → I (s.round job))
    (k : Nat) {s : Loop} (hk : s.rank job ≤ k) (h : I s) :
    ∃ s', s.run job k = some s' ∧ I s' ∧ ¬ s'.Running job := by
  induction k generalizing s with
  | zero =>
    have hstop : ¬ s.Running job := fun hrun => by
      have := Loop.rank_round hrun
      omega
    exact ⟨s, if_neg hstop, h, hstop⟩
  | succ k ih =>
    rw [Loop.run]
    by_cases hrun : s.Running job
    · rw [if_pos hrun]
      exact ih (by have := Loop.rank_round hrun; omega) (hI s h hrun)
    · rw [if_neg hrun]
      exact ⟨s, rfl, h, hrun⟩

/-- The loop gets to the last block exactly if a block is complete. -/
theorem Loop.Inv.end_iff {s : Loop} (h : s.Inv job old) (hstop : ¬ s.Running job) :
    s.i = job.count ↔ s.complete ≠ [] := by
  have hle := h.le
  have hfailed := h.failed
  have haccount := h.account
  rw [← List.length_pos_iff_ne_nil]
  unfold Loop.Running at hstop
  omega

/-- **The loader update leaves a copy to boot from.** Whatever the storage does, `WriteXIDBlock` ends,
    and its result says whether a block was completely written and read back equal. If what is read
    back as it was written is what the flash has, some block holds the old or the new data after every
    operation, and the verified blocks hold the new data at the end. All this provided that the blocks
    do not reach into each other. -/
theorem writeXIDBlock_safe {io : Io} (hcount : 2 ≤ job.count) (hapart : job.Apart old)
    (hold : ∀ i < job.count, Holds io.flash (job.base i) old.num old.sector)
    (hstart : io.log = []) :
    ∃ ret io', writeXIDBlock job io = some (ret, io') ∧
      (ret = true ↔ ∃ i < job.count, Verified job i io'.log) ∧
      (Honest io'.log → (∀ e ∈ io'.log, Bootable job old e.flash) ∧
        ∀ i < job.count, Verified job i io'.log →
          Holds io'.flash (job.base i) job.num job.sector) := by
  have hinv : (Loop.start io).Inv job old := by
    refine ⟨Nat.zero_le _, by simp only [Loop.start]; omega, rfl,
      fun j hj => absurd hj List.not_mem_nil, fun j hj => ?_, fun j _ hj => hold j hj,
      fun _ j hj => absurd hj List.not_mem_nil, fun _ e he => ?_⟩
    · rw [Loop.start, hstart, Verified, List.map_nil, List.infix_nil] at hj
      exact absurd hj nofun
    · rw [Loop.start, hstart] at he
      cases he
  have hrank : (Loop.start io).rank job ≤ 2 * job.count + 1 := Nat.le_refl _
  obtain ⟨s, hrun, hinv', hstop⟩ :=
    Loop.run_invariant (fun s h hrun => h.round hrun hapart) _ hrank hinv
  refine ⟨decide (s.i = job.count), s.io, ?_, ?_, fun hhonest =>
    ⟨hinv'.safe hhonest, fun i _ hi => ?_⟩⟩
  · rw [writeXIDBlock, hrun]
    rfl
  · rw [decide_eq_true_iff, hinv'.end_iff hstop]
    constructor
    · intro hne
      obtain ⟨i, hi⟩ := List.exists_mem_of_ne_nil _ hne
      obtain ⟨hlt, hverified⟩ := hinv'.verified i hi
      exact ⟨i, hlt.trans_le hinv'.le, hverified⟩
    · rintro ⟨i, -, hi⟩
      obtain ⟨j, hj, -⟩ := hinv'.only i hi
      exact List.ne_nil_of_mem hj
  · obtain ⟨j, hj, haddr⟩ := hinv'.only i hi
    rw [Job.base, haddr]
    exact hinv'.new hhonest j hj

end Loop

/-! ## Blocks that fit -/

theorem sectorAt_of_fits {start size y : Nat} (hend : start + size ≤ 2 ^ 32) (hy : y < size) :
    sectorAt (start % 2 ^ 32) y = start + y := by
  unfold sectorAt
  omega

/-- Different blocks do not reach into each other if the data fits into a block. -/
theorem Job.apart_of_fits {job : Job} {old : Old} (hnum : job.num ≤ job.blockSize.toNat)
    (hold : old.num ≤ job.blockSize.toNat)
    (hmedium : ∀ i < job.count,
      job.addr i * job.blockSize.toNat + job.blockSize.toNat ≤ 2 ^ 32)
    (hdistinct : ∀ i < job.count, ∀ j < job.count, i ≠ j → job.addr i ≠ job.addr j) :
    job.Apart old := by
  intro i hi j hj hne y hy htouch
  have hbelow : ∀ a b, a < b →
      a * job.blockSize.toNat + job.blockSize.toNat ≤ b * job.blockSize.toNat := by
    intro a b hab
    rw [← Nat.succ_mul]
    exact Nat.mul_le_mul_right _ hab
  have hsector := sectorAt_of_fits (hmedium j hj) (by omega : y < job.blockSize.toNat)
  have hin : job.addr i * job.blockSize.toNat ≤ sectorAt (job.base j) y ∧
      sectorAt (job.base j) y < job.addr i * job.blockSize.toNat + job.blockSize.toNat := by
    obtain hin | ⟨z, hz, heq⟩ := htouch
    · exact hin
    · have hother := sectorAt_of_fits (hmedium i hi) (by omega : z < job.blockSize.toNat)
      rw [heq, Job.base, hother]
      omega
  rw [Job.base, hsector] at hin
  rcases Nat.lt_or_gt_of_ne (hdistinct i hi j hj hne) with hlt | hlt
  · have := hbelow _ _ hlt
    omega
  · have := hbelow _ _ hlt
    omega

/-- Two adjacent blocks of 32 sectors, and `num` sectors of new data. -/
def twoBlocks (num : UInt32) : Job := ⟨[2, 3], 32, fun _ => 1, num⟩

/-- Old data of four sectors. -/
def fourSectors : Old := ⟨4, fun _ => List.replicate 512 0⟩

/-- A flash in which all sectors are like the old ones. The first write reports success, but stores
    nothing of what it was given. -/
def failingFlash : Io := ⟨fun _ => List.replicate 512 0, [.ok, .corrupt (fun _ => [])], []⟩

theorem writeXIDBlock_safe_twoBlocks :
    ∃ ret io', writeXIDBlock (twoBlocks 8) failingFlash = some (ret, io') ∧
      (ret = true ↔ ∃ i < (twoBlocks 8).count, Verified (twoBlocks 8) i io'.log) ∧
      (Honest io'.log → (∀ e ∈ io'.log, Bootable (twoBlocks 8) fourSectors e.flash) ∧
        ∀ i < (twoBlocks 8).count, Verified (twoBlocks 8) i io'.log → Holds io'.flash
          ((twoBlocks 8).base i) (twoBlocks 8).num (twoBlocks 8).sector) :=
  writeXIDBlock_safe (by decide)
    (Job.apart_of_fits (by decide) (by decide) (by decide) (by decide)) (fun _ _ _ _ => rfl) rfl

/-- With 44 sectors of new data the second write for the first block destroys the old data of the
    second block, before the first one is complete; and nothing failed. -/
theorem writeXIDBlock_overrun :
    (∀ i < (twoBlocks 44).count, Holds (fun _ => List.replicate 512 0) ((twoBlocks 44).base i)
        fourSectors.num fourSectors.sector) ∧
      (writeXIDBlock (twoBlocks 44) ⟨fun _ => List.replicate 512 0, [], []⟩).any
        (fun r => r.2.log.any (fun e => decide (¬ Bootable (twoBlocks 44) fourSectors e.flash))) := by
  refine ⟨fun _ _ _ _ => rfl, ?_⟩
  decide +kernel

end IdBlock
