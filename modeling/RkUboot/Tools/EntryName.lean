import Mathlib.Data.List.DropRight
import RkUboot.Tools.BootMerger

set_option autoImplicit false

/-! # The name of an entry (`tools/boot_merger.c`)

`getName` takes the name of an entry from a path: what is behind the last slash and before the last dot.
But it looks for the dot in the whole path. If there is none behind the last slash and one before it,
as in `./boot`, the dot is before the start of the name; the length is negative, and `str2wide` writes
its terminator before the field. -/

namespace BootMerger

/-! ## The source -/

/-- `MAX_NAME_LEN`. -/
def maxNameLen : Nat := 20

/-- The conversion `(uint16_t) c`; `char` is signed. -/
def wideChar (c : UInt8) : UInt16 := UInt16.ofNat (if c < 128 then c.toNat else c.toNat + 0xFF00)

/-- An array of 16-bit characters and what is around it in memory. -/
abbrev WideMem := Int → UInt16

/-- Model of `str2wide`. -/
def str2wide (str : List UInt8) (wide : WideMem) (len : Int) : WideMem :=
  Function.update
    ((List.range len.toNat).foldl
      (fun (w : WideMem) (i : Nat) => Function.update w i (wideChar (str.getD i 0))) wide)
    len 0

/-- `start - path`. -/
def nameStart (path : List UInt8) : Nat := ((strrchr 47 path).map (· + 1)).getD 0

/-- `end - path`. -/
def nameEnd (path : List UInt8) : Nat := (strrchr 46 path).getD path.length

/-- `end - start` as an `int`. -/
def nameLen (path : List UInt8) : Int := ((nameEnd path : Int) - nameStart path).bmod (2 ^ 32)

/-- Model of `getName` on memory, with the field `dst` at 0. -/
def getNameTo (path : List UInt8) (dst : WideMem) : WideMem :=
  let len := if (maxNameLen : Int) ≤ nameLen path then (maxNameLen : Int) - 1 else nameLen path
  str2wide (path.drop (nameStart path)) dst len

/-! ## What it is for -/

/-- The last component of a path. -/
def lastComponent (path : List UInt8) : List UInt8 := path.rtakeWhile (fun c => c ≠ 47)

/-- A file name without its last extension. -/
def stem (name : List UInt8) : List UInt8 :=
  match strrchr 46 name with
  | some i => name.take i
  | none => name

/-- The name that belongs into the entry. -/
def entryName (path : List UInt8) : List UInt8 := (stem (lastComponent path)).take (maxNameLen - 1)

/-- The field has the name with its terminator, and nothing outside of the field is written. -/
structure NameStored (path : List UInt8) (dst dst' : WideMem) : Prop where
  chars : ∀ i (h : i < (entryName path).length), dst' i = wideChar (entryName path)[i]
  terminated : dst' (entryName path).length = 0
  inside : ∀ i : Int, i < 0 ∨ (maxNameLen : Int) ≤ i → dst' i = dst i

/-! ## The last slash and the last dot -/

section Strrchr

variable {c : UInt8} {xs ys path : List UInt8}

theorem strrchr_append (c : UInt8) (xs ys : List UInt8) :
    strrchr c (xs ++ ys)
      = match strrchr c ys with
        | some i => some (xs.length + i)
        | none => strrchr c xs := by
  induction xs with
  | nil =>
    cases h : strrchr c ys with
    | none => simp [h, strrchr]
    | some i => simp [h]
  | cons x xs ih =>
    rw [List.cons_append, strrchr, ih]
    cases h : strrchr c ys with
    | none => simp only [strrchr]
    | some i =>
      simp only [List.length_cons]
      congr 1
      omega

theorem strrchr_eq_none_iff : strrchr c xs = none ↔ c ∉ xs := by
  induction xs with
  | nil => simp [strrchr]
  | cons x xs ih =>
    rw [strrchr]
    cases h : strrchr c xs with
    | none =>
      have hnot := ih.1 h
      simp only [ite_eq_right_iff, reduceCtorEq, List.mem_cons, hnot, or_false]
      exact ⟨fun hx heq => hx heq.symm, fun hx heq => hx heq.symm⟩
    | some i =>
      have hmem : c ∈ xs := by
        by_contra hnot
        rw [ih.2 hnot] at h
        cases h
      simp [hmem]

theorem strrchr_lt {i : Nat} (h : strrchr c xs = some i) : i < xs.length := by
  induction xs generalizing i with
  | nil => cases h
  | cons x xs ih =>
    rw [strrchr] at h
    cases hrest : strrchr c xs with
    | none =>
      rw [hrest] at h
      simp only [Option.ite_none_right_eq_some, Option.some.injEq] at h
      rw [List.length_cons]
      omega
    | some j =>
      rw [hrest] at h
      have := ih hrest
      have := Option.some.inj h
      rw [List.length_cons]
      omega

/-- A path is its directory and its last component. -/
theorem exists_directory (path : List UInt8) :
    ∃ dir, path = dir ++ lastComponent path ∧ nameStart path = dir.length := by
  have hsplit : path = path.rdropWhile (fun c => c ≠ 47) ++ lastComponent path := by
    have := congrArg List.reverse
      (List.takeWhile_append_dropWhile (p := fun c => decide (c ≠ 47)) (l := path.reverse))
    rw [List.reverse_append, List.reverse_reverse] at this
    exact this.symm
  have hslash : strrchr 47 (lastComponent path) = none := by
    rw [strrchr_eq_none_iff]
    intro hmem
    simpa using List.mem_rtakeWhile_imp hmem
  refine ⟨path.rdropWhile (fun c => c ≠ 47), hsplit, ?_⟩
  have hstart : strrchr 47 path = strrchr 47 (path.rdropWhile (fun c => c ≠ 47)) := by
    conv_lhs => rw [hsplit, strrchr_append, hslash]
  rw [nameStart, hstart]
  rcases List.eq_nil_or_concat (path.rdropWhile (fun c => c ≠ 47)) with hnil | ⟨dir, last, hlast⟩
  · rw [hnil]
    rfl
  -- the directory ends with a slash
  have hne : path.rdropWhile (fun c => c ≠ 47) ≠ [] := by
    rw [hlast]
    simp
  have hend := List.rdropWhile_last_not (fun c => decide (c ≠ 47)) path hne
  rw [List.concat_eq_append] at hlast
  simp only [hlast, List.getLast_append_singleton] at hend
  have hslash' : last = 47 := by simpa using hend
  rw [hlast, strrchr_append, hslash']
  simp [strrchr]

end Strrchr

/-! ## The length -/

section Length

variable {path : List UInt8}

theorem drop_nameStart (path : List UInt8) : path.drop (nameStart path) = lastComponent path := by
  obtain ⟨dir, hsplit, hstart⟩ := exists_directory path
  rw [hstart]
  conv_lhs => rw [hsplit]
  exact List.drop_left

theorem lastComponent_subset {c : UInt8} (h : c ∈ lastComponent path) : c ∈ path := by
  rw [← drop_nameStart] at h
  exact List.mem_of_mem_drop h

theorem stem_of_not_mem {name : List UInt8} (h : 46 ∉ name) : stem name = name := by
  rw [stem, strrchr_eq_none_iff.2 h]

theorem stem_eq_take (name : List UInt8) : stem name = name.take (stem name).length := by
  rw [stem]
  cases h : strrchr 46 name with
  | none => exact (List.take_length).symm
  | some i =>
    have hle : i ≤ name.length := (strrchr_lt h).le
    simp only [List.length_take, Nat.min_eq_left hle]

theorem entryName_eq_take (path : List UInt8) :
    entryName path = (lastComponent path).take (min (stem (lastComponent path)).length 19) := by
  have hstem := stem_eq_take (lastComponent path)
  rw [entryName]
  conv_lhs => rw [hstem]
  rw [List.take_take, Nat.min_comm]
  rfl

theorem length_entryName (path : List UInt8) :
    (entryName path).length = min (stem (lastComponent path)).length 19 := by
  rw [entryName, List.length_take, Nat.min_comm]
  rfl

theorem mem_of_mem_entryName {c : UInt8} (h : c ∈ entryName path) : c ∈ path := by
  rw [entryName_eq_take] at h
  exact lastComponent_subset (List.mem_of_mem_take h)

/-- The dot that `getName` finds is the one of the component. -/
def DotFound (path : List UInt8) : Prop := 46 ∈ lastComponent path ∨ 46 ∉ path
  deriving Decidable

/-- If the dot is the component's, the name ends where its stem does. -/
theorem nameEnd_of_dotFound (h : DotFound path) :
    nameEnd path = nameStart path + (stem (lastComponent path)).length := by
  obtain ⟨dir, hsplit, hstart⟩ := exists_directory path
  rw [hstart, nameEnd]
  rcases h with hdot | hnone
  · cases hlast : strrchr 46 (lastComponent path) with
    | none => exact absurd hdot (strrchr_eq_none_iff.1 hlast)
    | some i =>
      have hend : strrchr 46 path = some (dir.length + i) := by
        conv_lhs => rw [hsplit, strrchr_append, hlast]
      have hle : i ≤ (lastComponent path).length := (strrchr_lt hlast).le
      simp only [hend, stem, hlast, Option.getD_some, List.length_take, Nat.min_eq_left hle]
  · have hlast : 46 ∉ lastComponent path := fun hmem => hnone (lastComponent_subset hmem)
    rw [strrchr_eq_none_iff.2 hnone, stem_of_not_mem hlast, Option.getD_none]
    conv_lhs => rw [hsplit]
    exact List.length_append

/-- Otherwise the dot is before the component, which is its own stem. -/
theorem nameEnd_of_not_dotFound (h : ¬ DotFound path) :
    nameEnd path < nameStart path ∧ stem (lastComponent path) = lastComponent path := by
  obtain ⟨dir, hsplit, hstart⟩ := exists_directory path
  rw [DotFound, not_or, not_not] at h
  obtain ⟨hlast, hdot⟩ := h
  refine ⟨?_, stem_of_not_mem hlast⟩
  have hend : strrchr 46 path = strrchr 46 dir := by
    conv_lhs => rw [hsplit, strrchr_append, strrchr_eq_none_iff.2 hlast]
  rw [hstart, nameEnd]
  cases hdir : strrchr 46 dir with
  | none => exact absurd hdot (strrchr_eq_none_iff.1 (hend.trans hdir))
  | some i =>
    rw [hend, hdir]
    exact strrchr_lt hdir

theorem nameEnd_le (path : List UInt8) : nameEnd path ≤ path.length := by
  rw [nameEnd]
  cases h : strrchr 46 path with
  | none => exact le_rfl
  | some i => exact (strrchr_lt h).le

theorem nameStart_le (path : List UInt8) : nameStart path ≤ path.length := by
  obtain ⟨dir, hsplit, hstart⟩ := exists_directory path
  have := congrArg List.length hsplit
  rw [List.length_append] at this
  omega

/-- The abstract `getName` gives the entry's name if the dot is the component's, and no name if it is
    not. -/
theorem getName_eq (path : List UInt8) :
    getName path = if DotFound path then some (entryName path) else none := by
  have hget : getName path
      = if nameEnd path < nameStart path then none
        else some ((path.drop (nameStart path)).take (min (nameEnd path - nameStart path) 19)) := rfl
  rw [hget]
  by_cases hfound : DotFound path
  · have hend := nameEnd_of_dotFound hfound
    rw [if_pos hfound, if_neg (by omega), hend, drop_nameStart, Nat.add_sub_cancel_left,
      entryName_eq_take]
  · rw [if_neg hfound, if_pos (nameEnd_of_not_dotFound hfound).1]

/-- In a path of a possible length the distance is not cut. -/
theorem nameLen_of_length_lt (h : path.length < 2 ^ 31) :
    nameLen path = (nameEnd path : Int) - nameStart path := by
  have hend := nameEnd_le path
  have hstart := nameStart_le path
  rw [nameLen]
  exact Int.bmod_eq_of_le (by omega) (by omega)

/-- A short name is not cut. -/
theorem nameLen_of_stem_short (h : DotFound path)
    (hshort : (stem (lastComponent path)).length < maxNameLen) :
    nameLen path = (stem (lastComponent path)).length := by
  have hlt : (stem (lastComponent path)).length < 20 := hshort
  rw [nameLen, nameEnd_of_dotFound h]
  have hdist : ((nameStart path + (stem (lastComponent path)).length : Nat) : Int) - nameStart path
      = (stem (lastComponent path)).length := by
    omega
  rw [hdist]
  exact Int.bmod_eq_of_le (by omega) (by omega)

end Length

/-! ## What is written -/

section Write

variable {path : List UInt8}

theorem wideChar_ne_zero {c : UInt8} (h : c ≠ 0) : wideChar c ≠ 0 := by
  intro hwide
  have hnat := congrArg UInt16.toNat hwide
  have hpos : c.toNat ≠ 0 := fun h0 => h (UInt8.toNat_inj.1 h0)
  have hlt := c.toNat_lt
  rw [wideChar] at hnat
  split at hnat <;> simp only [UInt16.toNat_ofNat', UInt16.toNat_zero] at hnat <;> omega

theorem foldl_update_apply (str : List UInt8) (w : WideMem) (n : Nat) (i : Int) :
    (List.range n).foldl
        (fun (w : WideMem) (i : Nat) => Function.update w i (wideChar (str.getD i 0))) w i
      = if 0 ≤ i ∧ i < n then wideChar (str.getD i.toNat 0) else w i := by
  induction n with
  | zero => rw [if_neg (by omega)]; rfl
  | succ n ih =>
    rw [List.range_succ, List.foldl_append, List.foldl_cons, List.foldl_nil]
    by_cases hi : i = n
    · subst hi
      rw [Function.update_self, if_pos (by omega), Int.toNat_natCast]
    rw [Function.update_of_ne hi, ih]
    by_cases hin : 0 ≤ i ∧ i < n
    · rw [if_pos hin, if_pos (by omega)]
    · rw [if_neg hin, if_neg (by omega)]

theorem str2wide_apply (str : List UInt8) (w : WideMem) (len i : Int) :
    str2wide str w len i
      = if i = len then 0
        else if 0 ≤ i ∧ i < len then wideChar (str.getD i.toNat 0)
        else w i := by
  rw [str2wide]
  by_cases hi : i = len
  · rw [hi, Function.update_self, if_pos rfl]
  rw [Function.update_of_ne hi, foldl_update_apply, if_neg hi]
  by_cases hin : 0 ≤ i ∧ i < len
  · rw [if_pos hin, if_pos (by omega)]
  · rw [if_neg hin, if_neg (by omega)]

/-- `len` of `getName`, with the limit. -/
theorem getNameTo_apply (path : List UInt8) (dst : WideMem) (i : Int) :
    getNameTo path dst i
      = if i = min (nameLen path) 19 then 0
        else if 0 ≤ i ∧ i < min (nameLen path) 19 then
          wideChar ((lastComponent path).getD i.toNat 0)
        else dst i := by
  have hlen : (if (maxNameLen : Int) ≤ nameLen path then (maxNameLen : Int) - 1 else nameLen path)
      = min (nameLen path) 19 := by
    have hmax : (maxNameLen : Int) = 20 := rfl
    rw [hmax]
    split <;> omega
  rw [getNameTo]
  simp only [hlen, drop_nameStart, str2wide_apply]

/-- Behind a name that is shorter than the length is the end of the path. -/
theorem getD_entryName_length (h : ((entryName path).length : Int) < min (nameLen path) 19) :
    (lastComponent path).getD (entryName path).length 0 = 0 := by
  rw [length_entryName] at *
  have hshort : (stem (lastComponent path)).length < maxNameLen := by
    have hmax : maxNameLen = 20 := rfl
    omega
  by_cases hfound : DotFound path
  · rw [nameLen_of_stem_short hfound hshort] at h
    omega
  · rw [(nameEnd_of_not_dotFound hfound).2] at h ⊢
    exact List.getD_eq_default _ _ (by omega)

/-- If the length is enough for the name, the name is stored. -/
theorem nameStored_of_le (dst : WideMem) (h : ((entryName path).length : Int) ≤ nameLen path) :
    NameStored path dst (getNameTo path dst) := by
  have hle : ((entryName path).length : Int) ≤ min (nameLen path) 19 := by
    have := length_entryName path
    omega
  refine ⟨?_, ?_, ?_⟩
  · intro i hi
    have hget : (lastComponent path).getD i 0 = (entryName path)[i] := by
      have htake := entryName_eq_take path
      have hcomp : i < (lastComponent path).length := by
        rw [htake, List.length_take] at hi
        omega
      simp only [htake, List.getElem_take, List.getD_eq_getElem _ _ hcomp]
    rw [getNameTo_apply, if_neg (by omega), if_pos (by omega), Int.toNat_natCast, hget]
  · rw [getNameTo_apply]
    by_cases heq : ((entryName path).length : Int) = min (nameLen path) 19
    · rw [if_pos heq]
    · rw [if_neg heq, if_pos (by omega), Int.toNat_natCast, getD_entryName_length (by omega)]
      rfl
  · intro i hi
    have hmax : (maxNameLen : Int) = 20 := rfl
    rw [getNameTo_apply, if_neg (by omega), if_neg (by omega)]

/-- If it is not, the terminator is before the field or inside the name. -/
theorem not_nameStored_of_lt (hpath : 0 ∉ path) (h : nameLen path < (entryName path).length) :
    ∃ dst, ¬ NameStored path dst (getNameTo path dst) := by
  have hmin : min (nameLen path) 19 = nameLen path := by
    have := length_entryName path
    omega
  have hzero : ∀ dst : WideMem, getNameTo path dst (nameLen path) = 0 := by
    intro dst
    rw [getNameTo_apply, if_pos hmin.symm]
  refine ⟨fun _ => 1, fun hstored => ?_⟩
  by_cases hneg : nameLen path < 0
  · have := hstored.inside _ (.inl hneg)
    rw [hzero] at this
    exact absurd this (by decide)
  obtain ⟨n, hn⟩ := Int.eq_ofNat_of_zero_le (not_lt.1 hneg)
  have hlt : n < (entryName path).length := by omega
  have hchar := hstored.chars n hlt
  rw [← hn, hzero] at hchar
  have hmem : (entryName path)[n] ∈ path := mem_of_mem_entryName (List.getElem_mem hlt)
  exact wideChar_ne_zero (fun h0 => hpath (h0 ▸ hmem)) hchar.symm

theorem nameStored_iff (hpath : 0 ∉ path) :
    (∀ dst, NameStored path dst (getNameTo path dst))
      ↔ ((entryName path).length : Int) ≤ nameLen path := by
  refine ⟨fun hall => ?_, fun h dst => nameStored_of_le dst h⟩
  by_contra hlt
  obtain ⟨dst, hnot⟩ := not_nameStored_of_lt hpath (not_le.1 hlt)
  exact hnot (hall dst)

theorem entryName_length_le_iff (hlen : path.length < 2 ^ 31) :
    ((entryName path).length : Int) ≤ nameLen path ↔ DotFound path := by
  rw [nameLen_of_length_lt hlen, length_entryName]
  by_cases hfound : DotFound path
  · have := nameEnd_of_dotFound hfound
    exact ⟨fun _ => hfound, fun _ => by omega⟩
  · have := (nameEnd_of_not_dotFound hfound).1
    exact ⟨fun _ => by omega, fun h => absurd h hfound⟩

/-- **`getName` stores the name of the last component, and writes only inside the field, if and only if
    the `int` distance from the component's start to the path's last dot (or to its end) is not smaller
    than the name.** In a path of less than two gigabytes: if the component has a dot, or the path has
    none. -/
theorem getNameTo_iff (path : List UInt8) (hpath : 0 ∉ path) :
    ((∀ dst, NameStored path dst (getNameTo path dst))
        ↔ ((entryName path).length : Int) ≤ nameLen path)
      ∧ (path.length < 2 ^ 31 →
          ((∀ dst, NameStored path dst (getNameTo path dst))
            ↔ 46 ∈ lastComponent path ∨ 46 ∉ path)) :=
  ⟨nameStored_iff hpath, fun hlen => (nameStored_iff hpath).trans (entryName_length_le_iff hlen)⟩

/-- `a/b.c`: the entry is `b`. -/
theorem getNameTo_file :
    entryName [97, 47, 98, 46, 99] = [98]
      ∧ ∀ dst, NameStored [97, 47, 98, 46, 99] dst (getNameTo [97, 47, 98, 46, 99] dst) :=
  ⟨by decide, ((getNameTo_iff [97, 47, 98, 46, 99] (by decide)).2 (by decide)).2 (by decide)⟩

/-- `./boot`: the name is `boot`, but the terminator is written two elements before the field, and
    nothing is written into it. -/
theorem getNameTo_before :
    entryName [46, 47, 98, 111, 111, 116] = [98, 111, 111, 116]
      ∧ getNameTo [46, 47, 98, 111, 111, 116] (fun _ => 1) (-2) = 0
      ∧ getNameTo [46, 47, 98, 111, 111, 116] (fun _ => 1) 0 = 1
      ∧ ¬ NameStored [46, 47, 98, 111, 111, 116] (fun _ => 1)
          (getNameTo [46, 47, 98, 111, 111, 116] (fun _ => 1)) := by
  have hbefore : getNameTo [46, 47, 98, 111, 111, 116] (fun _ => 1) (-2) = 0 := by decide +kernel
  refine ⟨by decide, hbefore, by decide +kernel, fun hstored => ?_⟩
  have := hstored.inside (-2) (.inl (by decide))
  rw [hbefore] at this
  exact absurd this (by decide)

end Write

end BootMerger
