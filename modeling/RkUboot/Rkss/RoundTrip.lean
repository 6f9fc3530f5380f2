import RkUboot.Rkss.Isolation

set_option autoImplicit false

/-! # What a file reads after it was written

The size of a record has 16 bits, so a write stores the low 16 bits of its length and puts that many
bytes into the sections; the number of sections is computed from the whole length, on both sides. A
read of the written length therefore delivers the written bytes, `len % 65536` of them. -/

namespace Rkss

/-- The data loop puts byte `x` of its buffer at byte `x` of the extent. -/
theorem storeData_apply_in (data : Mem) (num index lastw left : Nat) (disk : Mem) (x : Nat)
    (hleft : left ≤ 512 * num) (hx : x < left) :
    storeData data num index lastw left disk (512 * index + x) = data (lastw + x) := by
  induction num generalizing index lastw left disk x with
  | zero => omega
  | succ num ih =>
    obtain ⟨ws, hws⟩ : ∃ ws, ws = if left > 512 then 512 else left := ⟨_, rfl⟩
    have hle : ws ≤ 512 ∧ (ws = 512 ∨ ws = left) := by
      rw [hws]
      split <;> omega
    simp only [storeData, ← hws]
    by_cases hin : x < 512
    · -- this section; the later ones do not touch it
      rw [storeData_apply_out _ _ _ _ _ _ _ (by omega),
        Mem.copy_apply_in (by omega) (by omega),
        Mem.copy_apply_in (by omega) (by omega)]
      congr 1
      omega
    · have hih := ih (index + 1) (lastw + ws) (left - 512)
        (disk.copy (512 * index) (Mem.zero.copy 0 data lastw ws) 0 512) (x - 512)
        (by omega) (by omega)
      rw [show 512 * (index + 1) + (x - 512) = 512 * index + x by omega] at hih
      rw [hih, show lastw + ws + (x - 512) = lastw + x by omega]

/-- A read of the length that was written delivers its low 16 bits, and that many of the bytes. -/
theorem teeFsRead_written {disk : Mem} {fd len index : Nat} (data : Mem)
    (hflags : ∀ s, s ≤ 128 → flag disk s ≠ 0) (hrun : FreeRun disk (len / 512 + 1) index)
    (hfd : fd < 512) (seek : Int) (filled : List Nat) (buf : Mem) :
    ∃ buf', teeFsRead ⟨reliable (writtenDisk disk fd len index data), seek, filled⟩ fd len buf
        = (((len % 65536 : Nat) : Int), buf',
          ⟨reliable (writtenDisk disk fd len index data), seek, filled⟩) ∧
      ∀ x, x < len % 65536 → buf' x = data x := by
  have hi : 129 ≤ index := free_run_behind_metadata hflags (Nat.succ_pos _) hrun.2
  have hrange := hrun.1
  have hentry : entry (writtenDisk disk fd len index data) fd
      = trim (writtenInfo (entry disk fd) len index) := by
    unfold writtenDisk
    rw [entry_storeData _ _ _ _ _ _ _ hi hfd, entry_putEntry_same]
  obtain ⟨hused, hindex, hsize⟩ := writtenInfo_fields (entry disk fd) len index
  rw [Nat.mod_eq_of_lt (by omega)] at hindex
  rw [teeFsRead_reliable, hentry, infoUsed_trim, infoIndex_trim, infoSize_trim, hindex, hsize,
    if_pos hused, Nat.min_eq_right (Nat.mod_le ..)]
  refine ⟨_, rfl, fun x hx => ?_⟩
  rw [Mem.copy_apply_in (Nat.zero_le x) (by omega), Nat.sub_zero, writtenDisk,
    storeData_apply_in _ _ _ _ _ _ _ (by omega) hx, Nat.zero_add]

/-- **After a write that returns its length, a read of that length returns it and delivers exactly
    the written bytes if and only if the length fits the 16-bit size of the record.** -/
theorem write_read_exact_iff (s s' : State) (hio : s.dev.script = [])
    (hflags : ∀ i, i ≤ 128 → flag s.dev.disk i ≠ 0) (fd len : Nat) (hfd : fd < 512) (data : Mem)
    (h : teeFsWrite s fd len data = ((len : Int), s')) (buf : Mem) :
    ((teeFsRead s' fd len buf).1 = (len : Int) ∧
      (teeFsRead s' fd len buf).2.1.bytes 0 len = data.bytes 0 len) ↔ len < 65536 := by
  obtain ⟨⟨disk, script⟩, seek, filled⟩ := s
  obtain rfl : script = [] := hio
  rcases teeFsWrite_cases disk seek filled fd len data with
    hfail | ⟨n, index, hn, -, -, hrun, hw⟩
  · -- a failed write returns -1, not its length
    have hret := congrArg Prod.fst (h.symm.trans hfail)
    omega
  · obtain rfl : fd = n := by omega
    obtain rfl := congrArg Prod.snd (h.symm.trans hw)
    obtain ⟨buf', hread, hbytes⟩ := teeFsRead_written data hflags hrun hfd seek
      ((List.range' index (len / 512 + 1)).reverse ++ filled) buf
    dsimp only
    rw [hread]
    constructor
    · omega
    · intro hlen
      rw [Nat.mod_eq_of_lt hlen] at hbytes ⊢
      refine ⟨rfl, Mem.bytes_congr _ _ _ _ len ?_⟩
      intro x hx
      rw [Nat.zero_add]
      exact hbytes x hx

/-- A file of 600 bytes reads back. -/
theorem write_read_exact_iff_600 :
    ∃ s, Run.exec step start [.fsOpen fileA 8 0] = some s ∧
      (teeFsWrite s 0 600 (fun x => UInt8.ofNat x)).1 = 600 ∧
      (teeFsRead (teeFsWrite s 0 600 (fun x => UInt8.ofNat x)).2 0 600 Mem.zero).1 = 600 ∧
      (teeFsRead (teeFsWrite s 0 600 (fun x => UInt8.ofNat x)).2 0 600 Mem.zero).2.1.bytes 0 600
        = Mem.bytes (fun x => UInt8.ofNat x) 0 600 := by
  obtain ⟨disk, seek, filled, hexec, hI⟩ := run_counted [.fsOpen fileA 8 0]
    (by rw [start_eq]; decide +kernel)
  have heval : (Run.exec step start [.fsOpen fileA 8 0]).map
      (fun s => (teeFsWrite s 0 600 (fun x => UInt8.ofNat x)).1) = some 600 := by
    rw [start_eq]
    decide +kernel
  rw [hexec, Option.map_some] at heval
  have hret := Option.some.inj heval
  have h := (write_read_exact_iff ⟨reliable disk, seek, filled⟩ _ rfl hI.isProtected.metaFlags 0 600
    (by decide) (fun x => UInt8.ofNat x) (Prod.ext hret rfl) Mem.zero).2 (by decide)
  exact ⟨_, hexec, hret, h.1, h.2⟩

/-- A file of 65536 bytes is written whole, by the result of the write, and reads empty. -/
theorem write_read_size_wraps :
    ∃ s, Run.exec step start [.fsOpen fileA 8 0] = some s ∧
      (∀ i, i ≤ 128 → flag s.dev.disk i ≠ 0) ∧
      (teeFsWrite s 0 65536 Mem.zero).1 = 65536 ∧
      (teeFsRead (teeFsWrite s 0 65536 Mem.zero).2 0 65536 Mem.zero).1 = 0 := by
  obtain ⟨disk, seek, filled, hexec, hI⟩ := run_counted [.fsOpen fileA 8 0]
    (by rw [start_eq]; decide +kernel)
  have heval : (Run.exec step start [.fsOpen fileA 8 0]).map (fun s =>
      ((teeFsWrite s 0 65536 Mem.zero).1,
        (teeFsRead (teeFsWrite s 0 65536 Mem.zero).2 0 65536 Mem.zero).1)) = some (65536, 0) := by
    rw [start_eq]
    decide +kernel
  rw [hexec, Option.map_some] at heval
  obtain ⟨hwrite, hread⟩ := Prod.mk.inj (Option.some.inj heval)
  exact ⟨_, hexec, hI.isProtected.metaFlags, hwrite, hread⟩

end Rkss
