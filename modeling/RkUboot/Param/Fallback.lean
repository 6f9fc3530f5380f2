import RkUboot.Lib.Bytes
import RkUboot.Param.Store

set_option autoImplicit false

/-! # The copies of the parameter file

The flash command stores `PARAMETER_NUM` copies of the parameter file, `PARAMETER_OFFSET` blocks
apart, and `GetParam` has a loop over them. Every branch of the loop's body returns, the ones for a
failed read and for a damaged copy too; so the copies behind the first one are never looked at. -/

open Platform

namespace Param

/-! ## The loop -/

/-- `PARAMETER_NUM`. -/
def parameterNum : Nat := 8

/-- `PARAMETER_OFFSET`, in blocks. -/
def parameterOffset : Nat := 1024

/-- The first block of copy `i`, a `uint32`. -/
def copyLba (paramAddr : UInt32) (i : Nat) : Nat :=
  (paramAddr.toNat + i * parameterOffset) % 2 ^ 32

/-- The `for` loop of `GetParam`, with `k` copies to go from copy `i` on. -/
def getParamLoop (paramAddr : UInt32) : Nat → Nat → Mem → BlockDev → Int × Mem × BlockDev
  | 0, _, buf, dev => (-3, buf, dev)
  | _ + 1, i, buf, dev =>
    let r := dev.read (copyLba paramAddr i) (maxLoaderParam / 512) buf 0
    if r.1 then
      if checkParam r.2.1 = 0 then (0, r.2) else (-1, r.2)
    else (-2, r.2)

theorem copyLba_zero (paramAddr : UInt32) : copyLba paramAddr 0 = paramAddr.toNat := by
  have hlt := paramAddr.toNat_lt
  rw [copyLba, Nat.zero_mul, Nat.add_zero, Nat.mod_eq_of_lt hlt]

/-- The loop ends with its first round. -/
theorem getParam_eq_loop (paramAddr : UInt32) (buf : Mem) (dev : BlockDev) :
    getParam paramAddr.toNat buf dev = getParamLoop paramAddr parameterNum 0 buf dev := by
  rw [parameterNum, getParamLoop, copyLba_zero, getParam]
  split
  · split <;> rfl
  · rfl

/-! ## The copies -/

/-- The buffer with copy `i` in it. -/
def loaded (paramAddr : UInt32) (buf : Mem) (dev : BlockDev) (i : Nat) : Mem :=
  buf.copy 0 dev.disk (512 * copyLba paramAddr i) maxLoaderParam

/-- Copy `i` can be read, when the copies are read one after the other. -/
def Readable (dev : BlockDev) (i : Nat) : Prop := dev.script.getD i .ok = .ok
  deriving Decidable

/-- Copy `i` can be read and passes `CheckParam`. -/
def Intact (paramAddr : UInt32) (buf : Mem) (dev : BlockDev) (i : Nat) : Prop :=
  Readable dev i ∧ checkParam (loaded paramAddr buf dev i) = 0
  deriving Decidable

section Fallback

variable (paramAddr : UInt32) (buf : Mem) (dev : BlockDev)

theorem readable_zero_iff : Readable dev 0 ↔ dev.next = .ok := by
  unfold Readable BlockDev.next
  cases dev.script with
  | nil => exact Iff.rfl
  | cons r rs => exact Iff.rfl

/-- A readable first copy is what the buffer holds. -/
theorem getParam_of_readable (h : Readable dev 0) :
    let r := getParam paramAddr.toNat buf dev
    r.1 = (if checkParam (loaded paramAddr buf dev 0) = 0 then 0 else -1) ∧
      r.2.1 = loaded paramAddr buf dev 0 := by
  have hnext := (readable_zero_iff dev).1 h
  have hsize : 512 * (maxLoaderParam / 512) = maxLoaderParam := by decide
  simp only [getParam, BlockDev.read, hnext, if_true, hsize, loaded, copyLba_zero,
    and_self]

theorem getParam_of_unreadable (h : ¬ Readable dev 0) :
    (getParam paramAddr.toNat buf dev).1 = -2 := by
  rw [readable_zero_iff] at h
  unfold getParam BlockDev.read
  split
  · next hnext => exact absurd hnext h
  · rfl

/-- Success means that the first copy is intact. -/
theorem getParam_zero_iff :
    (getParam paramAddr.toNat buf dev).1 = 0 ↔ Intact paramAddr buf dev 0 := by
  by_cases hread : Readable dev 0
  · rw [(getParam_of_readable paramAddr buf dev hread).1]
    split
    · next hcheck => exact iff_of_true rfl ⟨hread, hcheck⟩
    · next hcheck => exact iff_of_false (by decide) (fun h => hcheck h.2)
  · rw [getParam_of_unreadable paramAddr buf dev hread]
    exact iff_of_false (by decide) (fun h => hread h.1)

/-- **Fallback to a copy.** The first intact copy is loaded whenever there is one, if that is the copy
    at `param_addr` itself or there is none at all, and in no other case. -/
theorem getParam_fallback_iff :
    ((∃ i < parameterNum, Intact paramAddr buf dev i ∧ (∀ j < i, ¬ Intact paramAddr buf dev j) ∧
        (getParam paramAddr.toNat buf dev).1 = 0 ∧
        (getParam paramAddr.toNat buf dev).2.1 = loaded paramAddr buf dev i) ↔
      ∃ i < parameterNum, Intact paramAddr buf dev i) ↔
      Intact paramAddr buf dev 0 ∨ ∀ i < parameterNum, ¬ Intact paramAddr buf dev i := by
  have hzero := getParam_zero_iff paramAddr buf dev
  constructor
  · intro hclaim
    by_cases hex : ∃ i < parameterNum, Intact paramAddr buf dev i
    · obtain ⟨_, _, _, _, hok, _⟩ := hclaim.2 hex
      exact .inl (hzero.1 hok)
    · exact .inr (fun i hi hintact => hex ⟨i, hi, hintact⟩)
  · rintro (hfirst | hnone)
    · have hbuf := (getParam_of_readable paramAddr buf dev hfirst.1).2
      exact iff_of_true
        ⟨0, by decide, hfirst, fun j hj => absurd hj (Nat.not_lt_zero j), hzero.2 hfirst, hbuf⟩
        ⟨0, by decide, hfirst⟩
    · constructor
      · rintro ⟨i, hi, hintact, -⟩
        exact ⟨i, hi, hintact⟩
      · rintro ⟨i, hi, hintact⟩
        exact absurd hintact (hnone i hi)

/-- A storage with the file `A`, as the second copy only. -/
def secondCopy (script : List IoResult) : BlockDev :=
  ⟨Mem.zero.store (512 * 1024) (Mem.le32 parmTag ++ Mem.le32 1 ++ [65] ++ Mem.le32 (crc32Rk [65])),
    script⟩

/-- An intact second copy is not loaded, whether the first one cannot be read or is damaged. -/
theorem getParam_second_copy :
    Intact 0 Mem.zero (secondCopy [.fail]) 1 ∧ (getParam 0 Mem.zero (secondCopy [.fail])).1 = -2 ∧
      Intact 0 Mem.zero (secondCopy []) 1 ∧ (getParam 0 Mem.zero (secondCopy [])).1 = -1 := by
  decide +kernel

end Fallback

end Param
