import RkUboot.Lib.Run
import RkUboot.Rkss.Format
import RkUboot.Rkss.Requests

set_option autoImplicit false

/-! # Runs of requests

A run starts on all-zero storage that was formatted (`start`) and takes one request after the
other. `run_invariant` is the rule the invariants of the file system are proved with: an effect
keeps the invariant, hence every run does. -/

namespace Rkss

/-- One request; its result is dropped. -/
def step (s : State) (r : Request) : Option State := (process s r).map Prod.snd

/-- All-zero storage after `tee_supp_rk_fs_init`. -/
def start : State := ⟨(teeSuppRkFsInit (reliable Mem.zero)).2, 0, []⟩

/-- The names in a request. -/
def Request.names : Request → List CName
  | .fsOpen filename _ _ => [filename]
  | .fsWrite _ _ _ => []
  | .fsUnlink filename => [filename]
  | .fsLink filename newfilename => [filename, newfilename]
  | .fsRename filenames newnames => [filenames, newnames]
  | .fsTrunc _ _ => []

/-- Every name in the request has at most 116 characters. -/
def ShortNames (r : Request) : Prop := ∀ nm ∈ r.names, nm.chars.length ≤ 116
  deriving Decidable

/-- The descriptor is one of the table, or it is refused. -/
def TableFd (s : State) (fd : Int) : Prop :=
  fd < 512 ∨ (rkssGetFileinfoByIndex s.dev fd.toNat).1.isNone
  deriving Decidable

variable {seek : Int} {filled : List Nat} {disk : Mem}

theorem fd_lt_of_used {fd : Nat}
    (hused : infoUsed (entry disk fd) = 1) (h : TableFd ⟨reliable disk, seek, filled⟩ fd) :
    fd < 512 := by
  rcases h with h | h
  · omega
  · simp only [Int.toNat_natCast, rkssGetFileinfoByIndex_reliable, hused] at h
    cases h

/-! ## The start -/

/-- The byte of a table section of formatted zeros. -/
def freshTableByte (x : Nat) : UInt8 :=
  if x = 504 then 0x01
  else if x = 508 then 0x78
  else if x = 509 then 0x56
  else if x = 510 then 0x34
  else if x = 511 then 0x12
  else 0

/-- The byte of the used-flags section of formatted zeros. -/
def freshFlagByte (x : Nat) : UInt8 := if x < 64 then 0x11 else if x = 64 then 0x10 else 0

/-- All-zero storage after formatting, byte by byte. -/
def freshDisk : Mem := fun x =>
  if x < 65536 then freshTableByte (x % 512) else freshFlagByte (x - 65536)

theorem resetSection_zero (x : Nat) (h : x < 512) :
    resetSection Mem.zero x = freshTableByte x := by
  have hall : ∀ y : Fin 512, resetSection Mem.zero y = freshTableByte y := by decide +kernel
  exact hall ⟨x, h⟩

theorem initUsedflags_zero (x : Nat) :
    initUsedflags Mem.zero (128 + 1) 0 x = freshFlagByte x := by
  have hzero : ∀ s, Mem.zero.nib 0 s = 0 := by
    intro s
    simp [Mem.nib_eq, Mem.zero]
  have hbyte := Mem.toNat_eq_nibs (initUsedflags Mem.zero (128 + 1) 0) 0 x
  simp only [nib_initUsedflags, hzero, Nat.zero_add, Nat.zero_le, true_and] at hbyte
  apply UInt8.toNat_inj.1
  unfold freshFlagByte
  rcases Nat.lt_trichotomy x 64 with hx | hx | hx
  · rw [if_pos hx, hbyte, if_pos (by omega), if_pos (by omega)]
    rfl
  · subst hx
    exact hbyte
  · rw [if_neg (by omega), if_neg (by omega), hbyte, if_neg (by omega), if_neg (by omega)]
    rfl

theorem sectionOf_zero (i : Nat) : sectionOf Mem.zero i = Mem.zero := by
  funext x
  unfold sectionOf Mem.copy
  split <;> rfl

theorem fill_zero : Mem.zero.fill 0 0x00 512 = Mem.zero := by
  funext x
  unfold Mem.fill
  split <;> rfl

theorem formatDisk_zero : formatDisk Mem.zero = freshDisk := by
  have hflags : flagsInitialised Mem.zero = false := by decide
  have htrailer : validTrailer Mem.zero = false := by decide
  funext x
  rw [apply_eq_section (formatDisk Mem.zero) x]
  unfold freshDisk
  have hmod : x % 512 < 512 := Nat.mod_lt x (by decide)
  split
  · rw [sectionOf_formatDisk _ _ (by omega), sectionOf_zero, formatSection, htrailer]
    exact resetSection_zero _ hmod
  by_cases hx : x < 66048
  · have hdiv : x / 512 = 128 := by omega
    have hsub : x - 65536 = x % 512 := by omega
    rw [hdiv, hsub, flagsOf_formatDisk, sectionOf_zero, formatFlags, hflags, fill_zero,
      if_neg Bool.false_ne_true, initUsedflags_zero]
  · rw [dataOf_formatDisk _ _ (by omega), sectionOf_zero, freshFlagByte, if_neg (by omega),
      if_neg (by omega)]
    rfl

theorem start_eq : start = ⟨reliable freshDisk, 0, []⟩ := by
  rw [start, teeSuppRkFsInit_reliable, formatDisk_zero]

theorem infoUsed_freshDisk (fd : Nat) (h : fd < 512) : infoUsed (entry freshDisk fd) = 0 := by
  have hle := entryAt_le fd h
  have hmod : entryAt fd % 512 < 504 := by
    unfold entryAt
    rw [Nat.mul_add_mod]
    exact (Nat.mod_le _ _).trans_lt (by omega)
  rw [infoUsed_entry, freshDisk, if_pos (by omega)]
  unfold freshTableByte
  simp (disch := omega) only [if_neg]

theorem flag_freshDisk (s : Nat) (h : s < 1024) :
    flag freshDisk s = if s ≤ 128 then 1 else 0 := by
  have hflags : flagsInitialised (sectionOf Mem.zero 128) = false := by
    rw [sectionOf_zero]
    decide
  rw [← formatDisk_zero, flag_formatDisk _ _ h, hflags]
  rfl

/-- Two file names for the runs on fixed inputs, `a` and `b`. -/
def fileA : CName := ⟨[97], by decide⟩

@[inherit_doc fileA]
def fileB : CName := ⟨[98], by decide⟩

/-! ## Requests are defined when the names fit -/

/-- A name that `tee_fs_link` or `tee_fs_rename` copies has at most 116 characters. -/
def CopiedNameFits (s : State) : Request → Prop
  | .fsLink filename newfilename =>
    0 ≤ (rkssGetFileinfoByName s.dev filename.chars).1 → newfilename.chars.length ≤ 116
  | .fsRename filenames newnames =>
    0 ≤ (rkssGetFileinfoByName s.dev filenames.chars).1 → newnames.chars.length ≤ 116
  | _ => True

instance (s : State) : (r : Request) → Decidable (CopiedNameFits s r)
  | .fsOpen _ _ _ => .isTrue trivial
  | .fsWrite _ _ _ => .isTrue trivial
  | .fsUnlink _ => .isTrue trivial
  | .fsLink _ _ => inferInstanceAs (Decidable (_ → _ ≤ _))
  | .fsRename _ _ => inferInstanceAs (Decidable (_ → _ ≤ _))
  | .fsTrunc _ _ => .isTrue trivial

theorem ShortNames.link {filename newfilename : CName}
    (h : ShortNames (.fsLink filename newfilename)) : newfilename.chars.length ≤ 116 :=
  h newfilename (by simp [Request.names])

theorem ShortNames.rename {filenames newnames : CName}
    (h : ShortNames (.fsRename filenames newnames)) : newnames.chars.length ≤ 116 :=
  h newnames (by simp [Request.names])

variable {r : Request}

theorem ShortNames.fits (h : ShortNames r) (s : State) : CopiedNameFits s r := by
  cases r with
  | fsLink filename newfilename => exact fun _ => h.link
  | fsRename filenames newnames => exact fun _ => h.rename
  | _ => trivial

theorem process_defined (s : State) (r : Request) (h : CopiedNameFits s r) :
    ∃ out, process s r = some out := by
  cases r with
  | fsLink filename newfilename =>
    simp only [process, teeFsLink]
    split
    · exact ⟨_, rfl⟩
    next hfound =>
    simp only [copyName_of_short _ _ (h (not_lt.1 hfound))]
    split
    · exact ⟨_, rfl⟩
    · split
      · exact ⟨_, rfl⟩
      · split <;> exact ⟨_, rfl⟩
  | fsRename filenames newnames =>
    simp only [process, teeFsRename]
    split
    · exact ⟨_, rfl⟩
    · next hfound =>
      simp only [copyName_of_short _ _ (h (not_lt.1 hfound))]
      split <;> exact ⟨_, rfl⟩
  | _ => exact ⟨_, rfl⟩

/-- What a step reaches from a reliable device, read off the list of effects. -/
theorem step_effect {s' : State}
    (h : step ⟨reliable disk, seek, filled⟩ r = some s') :
    ∃ disk' seek' new, s' = ⟨reliable disk', seek', new ++ filled⟩ ∧ Effect disk r disk' new := by
  obtain ⟨out, hout, rfl⟩ := Option.map_eq_some_iff.1 h
  exact process_effect disk seek filled r hout

/-- An invariant of the disk and of the sections filled so far, kept by every effect of a request
    that meets `C`, holds in the state every such run reaches. -/
theorem run_invariant {I : Mem → List Nat → Prop} {C : State → Request → Prop}
    (hfits : ∀ s r, C s r → CopiedNameFits s r)
    (hstep : ∀ disk seek filled r disk' new, I disk filled → C ⟨reliable disk, seek, filled⟩ r →
      Effect disk r disk' new → I disk' (new ++ filled))
    (rs : List Request) (disk : Mem) (seek : Int) (filled : List Nat) (h : I disk filled)
    (hC : Run.AlongExec step C ⟨reliable disk, seek, filled⟩ rs) :
    ∃ disk' seek' filled', Run.exec step ⟨reliable disk, seek, filled⟩ rs
      = some ⟨reliable disk', seek', filled'⟩ ∧ I disk' filled' := by
  have hkeep : ∀ s r, (s.dev.script = [] ∧ I s.dev.disk s.filled) → C s r →
      ∃ s', step s r = some s' ∧ s'.dev.script = [] ∧ I s'.dev.disk s'.filled := by
    intro s r hs hr
    obtain ⟨⟨disk, script⟩, seek, filled⟩ := s
    obtain ⟨rfl, hI⟩ := hs
    obtain ⟨out, hout⟩ := process_defined _ r (hfits _ _ hr)
    have hs' : step ⟨reliable disk, seek, filled⟩ r = some out.2 := by
      rw [step, hout, Option.map_some]
    obtain ⟨disk', seek', new, hout', heff⟩ := step_effect hs'
    rw [hout'] at hs'
    exact ⟨_, hs', rfl, hstep _ _ _ _ _ _ hI hr heff⟩
  obtain ⟨⟨⟨disk', script'⟩, seek', filled'⟩, he, hscript, hI⟩ :=
    Run.exec_invariant hkeep rs ⟨reliable disk, seek, filled⟩ ⟨rfl, h⟩ hC
  obtain rfl : script' = [] := hscript
  exact ⟨disk', seek', filled', he, hI⟩

end Rkss
