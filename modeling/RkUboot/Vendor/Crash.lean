import RkUboot.Vendor.Basic

set_option autoImplicit false

/-! # Crash recovery of the vendor storage

Every accepted write goes to the slot after the one the current image came from, with a version one
higher. The invariant behind recovery (`Recoverable`) is about `version2`, which lies in the last
sector and therefore only reaches the medium when the whole image does: the slot `j` that holds the
current image is not the one written next, and every other slot has a smaller `version2`. A torn
slot keeps its old `version2`, so it either fails the comparison with `version` or loses to `j`.
What the image holds plays no role, so nothing is asked of the ids and sizes written. -/

namespace Vendor

/-! ## Slots on the medium -/

/-- First sector of slot `i`, with the `u32` arithmetic of the source. -/
def slotLba (L : Layout) (i : Nat) : Nat := (vendorPartSize * i % 2 ^ 32 + L.start) % 2 ^ 32

/-- The bytes of the medium from slot `i` on. -/
def slotImage (L : Layout) (disk : Mem) (i : Nat) : Mem := fun x => disk (512 * slotLba L i + x)

variable {L : Layout}

theorem slotLba_mod (i : Nat) : slotLba L i % 128 = 0 := by
  have h := L.start_aligned
  simp only [slotLba, vendorPartSize] at h ⊢
  omega

variable {i j k : Nat}

theorem slotLba_ne (hi : i < 65536) (hj : j < 65536) (h : i ≠ j) :
    slotLba L i ≠ slotLba L j := by
  simp only [slotLba, vendorPartSize]
  omega

theorem slotImage_congr (disk : Mem) (h : slotLba L i = slotLba L j) :
    slotImage L disk i = slotImage L disk j := by
  funext x
  simp only [slotImage, h]

variable {disk g ram : Mem}

/-- The header fields of two images that agree. -/
theorem fields_of_agree {g' : Mem} (h : g.AgreeOn g' 0 imageSize) :
    tag g = tag g' ∧ version g = version g' ∧ nextIndex g = nextIndex g' ∧
      version2 g = version2 g' := by
  refine ⟨Mem.AgreeOn.u32 ?_, Mem.AgreeOn.u32 ?_, Mem.AgreeOn.u16 ?_, Mem.AgreeOn.u32 ?_⟩ <;>
    exact h.mono (Nat.zero_le _) (by decide)

/-- Writing sectors of slot `i` leaves the other slots alone. -/
theorem slotImage_write_ne (h : slotLba L j ≠ slotLba L i)
    (hk : k ≤ 128) :
    (slotImage L (disk.copy (512 * slotLba L i) ram 0 (512 * k)) j).AgreeOn (slotImage L disk j) 0
      imageSize := by
  intro x _ hx
  have hi := slotLba_mod (L := L) i
  have hj := slotLba_mod (L := L) j
  simp only [imageSize] at hx
  exact Mem.copy_apply_out (by omega)

/-- What a write of the first `k` sectors leaves in the slot. -/
theorem slotImage_write_self :
    (slotImage L (disk.copy (512 * slotLba L i) ram 0 (512 * k)) i).AgreeOn ram 0 (512 * k) := by
  intro x _ hx
  simp only [slotImage]
  rw [Mem.copy_apply_in (by omega) (by omega)]
  congr 1
  omega

theorem version2_write_ne (h : slotLba L j ≠ slotLba L i)
    (hk : k ≤ 128) :
    version2 (slotImage L (disk.copy (512 * slotLba L i) ram 0 (512 * k)) j)
      = version2 (slotImage L disk j) :=
  (fields_of_agree (slotImage_write_ne h hk)).2.2.2

/-- A torn write does not reach the last sector. -/
theorem version2_torn (hk : k < 128) :
    version2 (slotImage L (disk.copy (512 * slotLba L i) ram 0 (512 * k)) i)
      = version2 (slotImage L disk i) := by
  apply Mem.AgreeOn.u32
  intro x hx _
  exact Mem.copy_apply_out (by omega)

/-! ## What `vendor_storage_init` loads -/

variable {s : State}

/-- What happens to the device. After a power loss RAM holds anything, and the device boots. -/
inductive Event where
  /-- A call of `vendor_storage_write` that runs to its end. -/
  | write (id : Nat) (pbuf : Mem) (size : Nat)
  /-- Power is lost during the call, after `k` sectors of the image were written. -/
  | tornWrite (id : Nat) (pbuf : Mem) (size k : Nat) (ram : Mem)
  /-- Power is lost between calls. -/
  | loss (ram : Mem)

def Event.isWrite : Event → Bool
  | .loss _ => false
  | _ => true

/-- The device, and the last image that was written completely. -/
structure Device where
  st : State
  last : Option Mem

/-- Boot: RAM holds `ram`, the medium is intact. -/
def boot (L : Layout) (ram disk : Mem) : State := (vendorStorageInit L ⟨ram, ⟨disk, []⟩⟩).2

/-- `g_vendor` is the last image completely written, the empty store if there was none. -/
def Recovered (d : Device) : Prop :=
  match d.last with
  | some image => d.st.ram.AgreeOn image 0 imageSize
  | none => d.st.ram.AgreeOn (emptyStore Mem.zero) 0 imageSize

/-! ## The invariant -/

/-- The medium as `last` left it: the image sits in a slot other than the one written next, and
    every other slot has a smaller `version2`. -/
def OnDisk (L : Layout) (disk : Mem) : Option Mem → Prop
  | none => ∀ i, version2 (slotImage L disk i) = 0
  | some image => tag image = vendorTag ∧ version2 image = version image ∧ 0 < version image ∧
      nextIndex image < L.vendorPartNum ∧
      ∃ j, j < L.vendorPartNum ∧ j < 65536 ∧ j ≠ nextIndex image ∧
        (slotImage L disk j).AgreeOn image 0 imageSize ∧
        ∀ i, slotLba L i = slotLba L j ∨ version2 (slotImage L disk i) < version image

structure Recoverable (L : Layout) (d : Device) : Prop where
  script : d.st.dev.script = []
  recovered : Recovered d
  onDisk : OnDisk L d.st.dev.disk d.last

theorem emptyStore_header (g : Mem) :
    tag (emptyStore g) = vendorTag ∧ version (emptyStore g) = 1 ∧ nextIndex (emptyStore g) = 0 := by
  refine ⟨?_, ?_, ?_⟩
  · simp (disch := omega) only [emptyStore, tag, Mem.u32_set16_ne, Mem.u32_set32_ne,
      Mem.u32_set32_same]
    rfl
  · rfl
  · rfl

variable {d : Device}

/-- What the invariant says about the header in RAM. -/
theorem Recoverable.header (h : Recoverable L d) (hL : 2 ≤ L.vendorPartNum) :
    tag d.st.ram = vendorTag ∧ 0 < version d.st.ram ∧ nextIndex d.st.ram < L.vendorPartNum := by
  have hrec := h.recovered
  have hdisk := h.onDisk
  unfold Recovered at hrec
  cases hlast : d.last with
  | none =>
    rw [hlast] at hrec
    obtain ⟨h0, h1, h2, -⟩ := fields_of_agree hrec
    obtain ⟨e0, e1, e2⟩ := emptyStore_header Mem.zero
    exact ⟨h0.trans e0, by rw [h1, e1]; exact Nat.one_pos, by rw [h2, e2]; omega⟩
  | some image =>
    rw [hlast] at hrec hdisk
    obtain ⟨h0, h1, h2, -⟩ := fields_of_agree hrec
    obtain ⟨e0, -, e1, e2, -⟩ := hdisk
    exact ⟨h0.trans e0, by rw [h1]; exact e1, by rw [h2]; exact e2⟩

/-- No slot has a `version2` above the version in RAM. -/
theorem Recoverable.version2_le (h : Recoverable L d) (i : Nat) :
    version2 (slotImage L d.st.dev.disk i) ≤ version d.st.ram := by
  have hrec := h.recovered
  have hdisk := h.onDisk
  unfold Recovered at hrec
  cases hlast : d.last with
  | none =>
    rw [hlast] at hdisk
    rw [hdisk i]
    exact Nat.zero_le _
  | some image =>
    rw [hlast] at hrec hdisk
    obtain ⟨-, hver, -, -, j, -, -, -, hagree, hall⟩ := hdisk
    rw [(fields_of_agree hrec).2.1]
    rcases hall i with hi | hi
    · rw [slotImage_congr _ hi, ← hver]
      exact le_of_eq (fields_of_agree hagree).2.2.2
    · exact le_of_lt hi

variable {last : Option Mem}

/-- A torn write of slot `i` leaves the last complete image where it was. -/
theorem OnDisk.torn (h : OnDisk L disk last)
    (hk : k < 128) (hi : i < 65536) (hnext : ∀ image, last = some image → nextIndex image = i) :
    OnDisk L (disk.copy (512 * slotLba L i) ram 0 (512 * k)) last := by
  -- `version2` of every slot is as before
  have hver : ∀ m, version2 (slotImage L (disk.copy (512 * slotLba L i) ram 0 (512 * k)) m)
      = version2 (slotImage L disk m) := by
    intro m
    by_cases hm : slotLba L m = slotLba L i
    · rw [slotImage_congr _ hm, slotImage_congr _ hm]
      exact version2_torn hk
    · exact version2_write_ne hm (le_of_lt hk)
  cases last with
  | none => intro m; rw [hver m]; exact h m
  | some image =>
    obtain ⟨htag, hver2, hpos, hlt, j, hj, hj', hne, hagree, hall⟩ := h
    rw [hnext image rfl] at hne
    refine ⟨htag, hver2, hpos, hlt, j, hj, hj', by rw [hnext image rfl]; exact hne, ?_, ?_⟩
    · exact (slotImage_write_ne (slotLba_ne hj' hi hne) (by omega)).trans hagree
    · intro m
      rw [hver m]
      exact hall m

/-! ## One step of a run -/

/-- The image written next carries the next version and names the slot after its own. -/
theorem bumpHeader_fields (L : Layout) (h : g.AgreeOn ram 0 10) :
    tag (bumpHeader L g) = tag ram ∧
    version (bumpHeader L g) = (version ram + 1) % 4294967296 ∧
    version2 (bumpHeader L g) = (version ram + 1) % 4294967296 ∧
    nextIndex (bumpHeader L g) = nextSlot L (nextIndex ram) := by
  have hver : version g = version ram := (h.mono (by omega) (by omega)).u32
  have hnext : nextIndex g = nextIndex ram := (h.mono (by omega) (by omega)).u16
  refine ⟨?_, ?_, ?_, ?_⟩
  · have htag : (bumpHeader L g).AgreeOn g 0 4 := fun x _ hx =>
      bumpHeader_apply_ne L g x (by omega)
    exact (htag.trans (h.mono (by omega) (by omega))).u32
  · rw [version_bumpHeader, hver]
  · rw [version2_bumpHeader, hver]
  · rw [nextIndex_bumpHeader, hnext]

theorem nextSlot_spec (i : Nat) (hL : 2 ≤ L.vendorPartNum) :
    nextSlot L i < L.vendorPartNum ∧ i ≠ nextSlot L i := by
  simp only [nextSlot]
  split <;> omega

/-- A complete write moves the store to the new image. -/
theorem Recoverable.written (h : Recoverable L d)
    (hL : 2 ≤ L.vendorPartNum) (hg : g.AgreeOn d.st.ram 0 10)
    (hlt : version d.st.ram + 1 < 4294967296) :
    OnDisk L (d.st.dev.disk.copy (512 * slotLba L (nextIndex d.st.ram)) (bumpHeader L g) 0 65536)
      (some (bumpHeader L g)) := by
  obtain ⟨htag, -, hnext⟩ := h.header hL
  obtain ⟨h0, h1, h2, h3⟩ := bumpHeader_fields L hg
  have hlt16 : nextIndex d.st.ram < 65536 := d.st.ram.u16_lt _
  obtain ⟨hslot, hne⟩ := nextSlot_spec (nextIndex d.st.ram) hL
  rw [Nat.mod_eq_of_lt hlt] at h1 h2
  refine ⟨h0.trans htag, h2.trans h1.symm, by omega, by rw [h3]; exact hslot,
    nextIndex d.st.ram, hnext, hlt16, by rw [h3]; exact hne, ?_, ?_⟩
  · exact slotImage_write_self (k := 128)
  intro i
  by_cases hi : slotLba L i = slotLba L (nextIndex d.st.ram)
  · exact .inl hi
  · right
    rw [show 65536 = 512 * 128 from rfl, version2_write_ne hi le_rfl, h1]
    exact Nat.lt_succ_of_le (h.version2_le i)

end Vendor
