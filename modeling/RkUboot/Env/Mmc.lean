import RkUboot.Lib.Run

set_option autoImplicit false

/-! # The redundant environment on MMC (`common/env_mmc.c`)

Two copies of the environment are on the MMC, each with a checksum and an 8-bit serial number.
`saveenv` writes the copy that is not in use, with the next serial number, and `env_relocate_spec`
takes the copy with the higher number, where 0 follows 255.

A write that fails advances the serial number all the same, so the numbers of the two copies can be
more than one apart. When the number wraps in between, the comparison takes the older copy. -/

namespace EnvMmc

/-! ## The model -/

/-- A copy, by the value that `gd->env_valid` has for it. -/
inductive Copy where
  | first
  | second
  deriving DecidableEq

def Copy.other : Copy → Copy
  | .first => .second
  | .second => .first

/-- `env_t` -/
structure EnvT where
  crc : Nat
  flags : UInt8
  data : List UInt8

/-- The copies on the MMC, `env_flags`, `gd->env_valid`, and what the last boot imported: a copy, or
    the default environment. -/
structure State where
  env : Copy → EnvT
  envFlags : UInt8
  envValid : Copy
  loaded : Option (Copy × List UInt8)

variable (crc32 : List UInt8 → Nat)

/-- The checksum of a copy is right. -/
def EnvT.CrcOk (e : EnvT) : Prop := crc32 e.data = e.crc
  deriving Decidable

/-- The choice between two good copies, by their serial numbers. -/
def checkSerial (flags1 flags2 : UInt8) : Copy :=
  if flags1 = 255 ∧ flags2 = 0 then .second
  else if flags2 = 255 ∧ flags1 = 0 then .first
  else if flags1 > flags2 then .first
  else if flags2 > flags1 then .second
  else .first

/-- Model of `env_relocate_spec`, with a readable MMC. -/
def envRelocateSpec (s : State) : State :=
  let crc1Ok := decide ((s.env .first).CrcOk crc32)
  let crc2Ok := decide ((s.env .second).CrcOk crc32)
  let select := fun c : Copy =>
    { s with envValid := c, envFlags := (s.env c).flags, loaded := some (c, (s.env c).data) }
  if !crc1Ok && !crc2Ok then { s with loaded := none }
  else if crc1Ok && !crc2Ok then select .first
  else if !crc1Ok && crc2Ok then select .second
  else select (checkSerial (s.env .first).flags (s.env .second).flags)

/-- A boot: the RAM is lost, and `env_init` sets `gd->env_valid` to 1. -/
def reboot (s : State) : State := envRelocateSpec crc32 { s with envFlags := 0, envValid := .first }

/-- What becomes of the write of a copy. -/
inductive Write where
  | done
  | failed
  | torn (left : EnvT)

/-- What `saveenv` writes, for an environment with the text `data`. -/
def envNew (data : List UInt8) (s : State) : EnvT := ⟨crc32 data, s.envFlags + 1, data⟩

/-- Model of `saveenv` from the point on where the environment was exported. -/
def saveenv (data : List UInt8) (write : Write) (s : State) : State :=
  let copy := s.envValid.other
  match write with
  | .done =>
    { s with
      env := Function.update s.env copy (envNew crc32 data s)
      envFlags := s.envFlags + 1
      envValid := copy }
  | .failed => { s with envFlags := s.envFlags + 1 }
  | .torn left => { s with env := Function.update s.env copy left, envFlags := s.envFlags + 1 }

/-- A `saveenv` that is refused before it writes, one that succeeds or fails, one that a power loss
    ends, or a boot. -/
inductive Op where
  | refused
  | save (data : List UInt8)
  | saveFails (data : List UInt8)
  | powerLoss (data : List UInt8) (left : EnvT)
  | boot

/-- A state with the copy that the last successful `saveenv` wrote. -/
structure History where
  state : State
  last : Option (Copy × List UInt8)

def step (h : History) : Op → History
  | .refused => h
  | .save data => ⟨saveenv crc32 data .done h.state, some (h.state.envValid.other, data)⟩
  | .saveFails data => { h with state := saveenv crc32 data .failed h.state }
  | .powerLoss data left => { h with state := reboot crc32 (saveenv crc32 data (.torn left) h.state) }
  | .boot => { h with state := reboot crc32 h.state }

/-! ## Which copy is selected -/

/-- The serial number `new` of the copy `c` is taken for newer than the number `old` of the other
    copy. -/
def Newer (c : Copy) (old new : UInt8) : Prop :=
  (old = 255 ∧ new = 0) ∨ (old < new ∧ ¬ (old = 0 ∧ new = 255)) ∨ (old = new ∧ c = .first)
  deriving Decidable

theorem checkSerial_first (old new : UInt8) : checkSerial new old = .first ↔ Newer .first old new := by
  simp only [checkSerial, Newer, gt_iff_lt, UInt8.lt_iff_toNat_lt, ← UInt8.toNat_inj,
    UInt8.reduceToNat,
    and_true]
  split_ifs <;> simp only [true_iff, false_iff] <;> omega

theorem checkSerial_second (old new : UInt8) :
    checkSerial old new = .second ↔ Newer .second old new := by
  simp only [checkSerial, Newer, gt_iff_lt, UInt8.lt_iff_toNat_lt, ← UInt8.toNat_inj,
    UInt8.reduceToNat,
    reduceCtorEq, and_false, or_false]
  split_ifs <;> simp only [true_iff, false_iff] <;> omega

/-- The copies of a state in which `c` is to be selected: it is good, and the other is not, or is
    older. -/
structure Current (env : Copy → EnvT) (c : Copy) : Prop where
  good : (env c).CrcOk crc32
  newer : (env c.other).CrcOk crc32 → Newer c (env c.other).flags (env c).flags

section Select

variable {crc32}

theorem reboot_current {s : State} {c : Copy} (h : Current crc32 s.env c) :
    reboot crc32 s = { s with envValid := c, envFlags := (s.env c).flags, loaded := some (c, (s.env c).data) } := by
  obtain ⟨hgood, hnewer⟩ := h
  unfold reboot envRelocateSpec
  by_cases hother : (s.env c.other).CrcOk crc32
  · have hnewer := hnewer hother
    cases c with
    | first =>
      simp only [Copy.other] at hother hnewer
      simp [hgood, hother, (checkSerial_first _ _).mpr hnewer]
    | second =>
      simp only [Copy.other] at hother hnewer
      simp [hgood, hother, (checkSerial_second _ _).mpr hnewer]
  · cases c with
    | first =>
      simp only [Copy.other] at hother
      simp [hgood, hother]
    | second =>
      simp only [Copy.other] at hother
      simp [hgood, hother]

/-- Only a copy that is newer is selected among two good ones. -/
theorem newer_of_reboot {s : State} {c : Copy} (hgood : (s.env c).CrcOk crc32)
    (hother : (s.env c.other).CrcOk crc32) (h : (reboot crc32 s).envValid = c) :
    Newer c (s.env c.other).flags (s.env c).flags := by
  unfold reboot envRelocateSpec at h
  cases c with
  | first =>
    simp only [Copy.other] at hother ⊢
    simp [hgood, hother] at h
    exact (checkSerial_first _ _).mp h
  | second =>
    simp only [Copy.other] at hother ⊢
    simp [hgood, hother] at h
    exact (checkSerial_second _ _).mp h

theorem reboot_none {s : State} (h : ∀ c, ¬ (s.env c).CrcOk crc32) :
    reboot crc32 s = { s with envFlags := 0, envValid := .first, loaded := none } := by
  unfold reboot envRelocateSpec
  simp [h]

end Select

/-! ## Runs -/

/-- A `saveenv` that succeeds writes a serial number that is taken for newer than that of the copy
    in use, if that one is good; and a power loss leaves a copy with a wrong checksum. -/
def OpOk (h : History) : Op → Prop
  | .save _ => (h.state.env h.state.envValid).CrcOk crc32 →
      Newer h.state.envValid.other (h.state.env h.state.envValid).flags (h.state.envFlags + 1)
  | .powerLoss _ left => ¬ left.CrcOk crc32
  | _ => True

instance (h : History) (op : Op) : Decidable (OpOk crc32 h op) := by
  cases op <;> unfold OpOk <;> infer_instance

/-- No copy is good and the second one is written next, or the copy in use is the last one written
    and would be selected. -/
def Tracks (h : History) : Prop :=
  match h.last with
  | none => (∀ c, ¬ (h.state.env c).CrcOk crc32) ∧ h.state.envValid = .first
  | some (c, data) => h.state.envValid = c ∧ (h.state.env c).data = data ∧ Current crc32 h.state.env c

theorem tracks_boot {h : History} (ht : Tracks crc32 h) :
    (reboot crc32 h.state).loaded = h.last ∧ Tracks crc32 ⟨reboot crc32 h.state, h.last⟩ := by
  obtain ⟨s, last⟩ := h
  cases last with
  | none =>
    obtain ⟨hbad, -⟩ := ht
    rw [reboot_none hbad]
    exact ⟨rfl, hbad, rfl⟩
  | some p =>
    obtain ⟨c, data⟩ := p
    obtain ⟨-, hdata, hcurrent⟩ := ht
    rw [reboot_current hcurrent]
    exact ⟨by rw [hdata], rfl, hdata, hcurrent⟩

theorem other_ne (c : Copy) : c.other ≠ c := by
  cases c <;> decide

theorem other_other (c : Copy) : c.other.other = c := by
  cases c <;> rfl

theorem saved_env (s : State) (data : List UInt8) :
    (saveenv crc32 data .done s).env s.envValid.other = envNew crc32 data s := Function.update_self ..

/-- The copy that is written is to be selected exactly if the serial number is newer. -/
theorem current_save {s : State} (data : List UInt8) :
    Current crc32 (saveenv crc32 data .done s).env s.envValid.other ↔
      ((s.env s.envValid).CrcOk crc32 →
        Newer s.envValid.other (s.env s.envValid).flags (s.envFlags + 1)) := by
  have hnew := saved_env crc32 s data
  have hold : (saveenv crc32 data .done s).env s.envValid.other.other = s.env s.envValid := by
    rw [other_other]
    exact Function.update_of_ne (other_ne _).symm _ _
  constructor
  · intro h hgood
    have := h.newer (by rw [hold]; exact hgood)
    rwa [hold, hnew] at this
  · intro h
    refine ⟨by rw [hnew]; exact rfl, ?_⟩
    rw [hold, hnew]
    exact h

theorem tracks_step (h : History) (op : Op) (ht : Tracks crc32 h) (hop : OpOk crc32 h op) :
    Tracks crc32 (step crc32 h op) := by
  cases op with
  | refused => exact ht
  | boot => exact (tracks_boot crc32 ht).2
  | saveFails data => exact ht
  | save data =>
    refine ⟨rfl, ?_, (current_save crc32 data).mpr hop⟩
    show ((saveenv crc32 data .done h.state).env h.state.envValid.other).data = data
    rw [saved_env]
    rfl
  | powerLoss data left =>
    -- The copy that is not in use is lost, and the boot finds the other one, if it is good.
    refine (tracks_boot crc32 (h := ⟨saveenv crc32 data (.torn left) h.state, h.last⟩) ?_).2
    obtain ⟨s, last⟩ := h
    have hlost : (saveenv crc32 data (.torn left) s).env s.envValid.other = left :=
      Function.update_self ..
    have hkept : (saveenv crc32 data (.torn left) s).env s.envValid = s.env s.envValid :=
      Function.update_of_ne (other_ne _).symm _ _
    cases last with
    | none =>
      obtain ⟨hbad, hvalid⟩ := ht
      refine ⟨fun c => ?_, hvalid⟩
      rw [hvalid] at hlost
      cases c with
      | first => rw [← hvalid, hkept]; exact hbad _
      | second => exact fun hgood => hop (hlost ▸ hgood)
    | some p =>
      obtain ⟨c, old⟩ := p
      obtain ⟨hvalid, hdata, hcurrent⟩ := ht
      change s.envValid = c at hvalid
      subst hvalid
      refine ⟨rfl, by dsimp only; rw [hkept]; exact hdata, ?_, fun hgood => ?_⟩
      · dsimp only
        rw [hkept]
        exact hcurrent.good
      · dsimp only at hgood
        rw [hlost] at hgood
        exact absurd hgood hop

/-- **The boot selects the copy that was saved last.** From two bad copies, in every run in which
    each successful `saveenv` writes a serial number that is newer in the comparison: at each boot
    the copy is selected that the last successful `saveenv` wrote, or the default environment if
    there was none. And in every state of such a run, a successful `saveenv` has its copy selected
    by the next boot exactly if its serial number is newer. -/
theorem reboot_selects_last {s : State} (hbad : ∀ c, ¬ (s.env c).CrcOk crc32) (ops : List Op)
    (hops : Run.Along (step crc32) (OpOk crc32) ⟨reboot crc32 s, none⟩ ops) :
    let h := ops.foldl (step crc32) ⟨reboot crc32 s, none⟩
    (reboot crc32 h.state).loaded = h.last ∧
    ∀ data, (reboot crc32 (saveenv crc32 data .done h.state)).envValid = h.state.envValid.other ↔
      OpOk crc32 h (.save data) := by
  have hstart : Tracks crc32 ⟨reboot crc32 s, none⟩ := by
    rw [reboot_none hbad]
    exact ⟨hbad, rfl⟩
  intro h
  have ht : Tracks crc32 h := Run.along_invariant (tracks_step crc32) ops _ hstart hops
  refine ⟨(tracks_boot crc32 ht).1, fun data => ⟨fun hselect hgood => ?_, fun hop => ?_⟩⟩
  · refine (((current_save crc32 data).mp ⟨?_, fun hother => ?_⟩) hgood)
    · rw [saved_env]
      exact rfl
    · exact newer_of_reboot (by rw [saved_env]; exact rfl) hother hselect
  · rw [reboot_current ((current_save crc32 data).mpr hop)]

theorem newer_succ (c : Copy) (old : UInt8) : Newer c old (old + 1) := by
  simp only [Newer, UInt8.lt_iff_toNat_lt, ← UInt8.toNat_inj, UInt8.toNat_add, UInt8.reduceToNat]
  have := old.toNat_lt
  omega

/-- After a boot a good copy in use has the number `env_flags`. -/
theorem reboot_flags {s : State}
    (h : ((reboot crc32 s).env (reboot crc32 s).envValid).CrcOk crc32) :
    ((reboot crc32 s).env (reboot crc32 s).envValid).flags = (reboot crc32 s).envFlags := by
  by_cases hbad : ∀ c, ¬ (s.env c).CrcOk crc32
  · rw [reboot_none hbad] at h
    exact absurd h (hbad _)
  have hselect : ∃ c, reboot crc32 s
      = { s with envValid := c, envFlags := (s.env c).flags, loaded := some (c, (s.env c).data) } := by
    unfold reboot envRelocateSpec
    dsimp only
    split_ifs with hnone
    · exact absurd (fun c => by cases c <;> simp_all) hbad
    all_goals exact ⟨_, rfl⟩
  obtain ⟨c, hc⟩ := hselect
  rw [hc]

/-- If no write failed since the last boot or successful `saveenv`, the next `saveenv` writes a newer
    serial number. -/
theorem opOk_save_step (h : History) (op : Op) (hop : op ≠ .refused) (hfails : ∀ d, op ≠ .saveFails d)
    (data : List UInt8) : OpOk crc32 (step crc32 h op) (.save data) := by
  intro hgood
  have hflags : ((step crc32 h op).state.env (step crc32 h op).state.envValid).flags
      = (step crc32 h op).state.envFlags := by
    cases op with
    | refused => exact absurd rfl hop
    | saveFails d => exact absurd rfl (hfails d)
    | save d => exact congrArg EnvT.flags (saved_env crc32 h.state d)
    | powerLoss d left => exact reboot_flags crc32 hgood
    | boot => exact reboot_flags crc32 hgood
  rw [hflags]
  exact newer_succ _ _

/-- Two bad copies, with a checksum that is always 0. -/
def blank : State := ⟨fun _ => ⟨1, 0, []⟩, 0, .first, none⟩

theorem reboot_selects_last_twice :
    (reboot (fun _ => 0) ([Op.save [1], .saveFails [2], .boot, .save [3]].foldl (step fun _ => 0)
      ⟨reboot (fun _ => 0) blank, none⟩).state).loaded = some (.first, [3]) :=
  (reboot_selects_last (s := blank) (fun _ => 0) (fun c h => absurd h (by cases c <;> decide))
    [.save [1], .saveFails [2], .boot, .save [3]] (by decide)).1

/-- 255 environments are saved, the next write fails, and the one after it gets the serial number 1. -/
def wrapped : History :=
  (List.replicate 255 (Op.save [1]) ++ [Op.saveFails [2], Op.save [2]]).foldl (step fun _ => 0)
    ⟨reboot (fun _ => 0) blank, none⟩

/-- The boot takes the copy with the number 255. -/
theorem reboot_selects_older :
    wrapped.last = some (.first, [2]) ∧
    (reboot (fun _ => 0) wrapped.state).loaded = some (.second, [1]) := by
  decide +kernel

end EnvMmc
