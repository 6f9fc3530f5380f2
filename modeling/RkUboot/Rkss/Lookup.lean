import RkUboot.Lib.Path
import RkUboot.Rkss.Names

set_option autoImplicit false

/-! # Looking a name up

`rkss_get_fileinfo_by_name` scans the table once and answers at the first used record whose name is
the one looked for, lies below it, or has it below itself: the comparison of components ends when
either of the two names has none left. What the function is for is said by `lookedUp`; the two
agree exactly when no record of the second and third kind is in the way (`Unobscured`). -/

namespace Rkss

open Path (Under Related)

/-! ## Components -/

theorem component_eq (s : List UInt8) : component s = Path.first 47 s := rfl

theorem afterSlash_eq (s : List UInt8) : afterSlash s = Path.rest 47 s := by
  unfold afterSlash Path.rest
  cases s.dropWhile (· ≠ 47) <;> rfl

/-- The folder matching loop asks whether one name is the other or lies below it. -/
theorem matchFolder_iff (fuel : Nat) (inpos svpos : List UInt8) (h : inpos.length < fuel) :
    matchFolder fuel inpos svpos = true ↔ Related 47 inpos svpos := by
  induction fuel generalizing inpos svpos with
  | zero => cases h
  | succ fuel ih =>
    unfold matchFolder
    split
    · next hne =>
      refine ⟨fun h => absurd h nofun, fun hrel => absurd hrel.first_eq hne⟩
    next heq =>
    rw [not_not, component_eq, component_eq] at heq
    rw [afterSlash_eq, afterSlash_eq]
    cases hin : Path.rest 47 inpos with
    | none =>
      -- the name looked for has no component left
      have hin' := Path.eq_first hin
      refine ⟨fun _ => ?_, fun _ => rfl⟩
      cases hsv : Path.rest 47 svpos with
      | none => exact .inl (hin'.trans (heq.trans (Path.eq_first hsv).symm))
      | some t =>
        refine .inr (.inl (Path.under_iff.2 ⟨t, ?_⟩))
        rw [hin', heq]
        exact Path.eq_first_append hsv
    | some s =>
      have hin' := Path.eq_first_append hin
      cases hsv : Path.rest 47 svpos with
      | none =>
        refine ⟨fun _ => .inr (.inr (Path.under_iff.2 ⟨s, ?_⟩)), fun _ => rfl⟩
        rw [Path.eq_first hsv, ← heq]
        exact hin'
      | some t =>
        have hlen := Path.rest_length hin
        rw [hin', Path.eq_first_append hsv, ← heq, Path.related_append]
        exact ih s t (by omega)

/-! ## Records -/

/-- Record `fd` is used and its name is the one looked for, lies below it, or has it below. -/
def Hit (disk : Mem) (filename : List UInt8) (fd : Nat) : Prop :=
  infoUsed (entry disk fd) ≠ 0 ∧ Related 47 filename (nameOf (entry disk fd))
  deriving Decidable

/-- The answer of the scan at a record that is hit. -/
def hitResult (disk : Mem) (filename : List UInt8) (fd : Nat) : Int :=
  if nameOf (entry disk fd) = filename then fd else -100

/-- A search that answers `v n` at the elements with property `p` is a search for the first one. -/
theorem findSome?_eq_find? {α β : Type} (p : α → Prop) [DecidablePred p] (v : α → β)
    (f : α → Option β) (l : List α) (h : ∀ n ∈ l, f n = if p n then some (v n) else none) :
    l.findSome? f = (l.find? (fun n => p n)).map v := by
  induction l with
  | nil => rfl
  | cons n l ih =>
    rw [List.findSome?_cons, List.find?_cons, h n ((.head _) ..),
      ih (fun m hm => h m (.tail _ hm))]
    by_cases hp : p n
    · simp only [if_pos hp, decide_eq_true hp, Option.map_some]
    · simp only [if_neg hp, decide_eq_false hp]

/-- The descriptors of the sections from `i` on are those of section `i` and of the later ones. -/
theorem range'_sections (i k : Nat) :
    List.range' (i * 4) ((k + 1) * 4)
      = (List.range 4).map (fun n => i * 4 + n) ++ List.range' ((i + 1) * 4) (k * 4) := by
  rw [← List.range'_eq_map_range, show (k + 1) * 4 = 4 + k * 4 by omega, ← List.range'_append,
    show i * 4 + 1 * 4 = (i + 1) * 4 by omega]

theorem nameByte_section (disk : Mem) (i n k : Nat) (hn : n < 4) (hk : k < 117) :
    entry disk (i * 4 + n) (1 + k) = sectionOf disk i (126 * n + 1 + k) := by
  rw [← loadInfo_section _ _ _ hn, loadInfo, Mem.copy_apply_in (by omega) (by omega)]
  exact congrArg _ (by omega)

section Scan

variable {disk : Mem} (hterm : TerminatedNames disk) (filename : CName)
  (hlen : filename.chars.length ≤ 116)

include hterm

/-- The name field of a used record, in the buffer of its section. -/
theorem terminated_section (i n : Nat) (hi : i < 128) (hn : n < 4)
    (hused : infoUsed (entry disk (i * 4 + n)) ≠ 0) :
    ∃ k, k < 117 ∧ sectionOf disk i (126 * n + 1 + k) = 0 := by
  obtain ⟨k, hk, hz⟩ := hterm (i * 4 + n) (by omega) hused
  exact ⟨k, hk, by rwa [← nameByte_section disk i n k hn hk]⟩

theorem cstr_section (i n : Nat) (hi : i < 128) (hn : n < 4)
    (hused : infoUsed (entry disk (i * 4 + n)) ≠ 0) :
    (sectionOf disk i).cstr 512 (126 * n + 1) = nameOf (entry disk (i * 4 + n)) := by
  rw [Mem.cstr_of_terminated (by decide : 117 ≤ 512) (terminated_section hterm i n hi hn hused)]
  exact Mem.cstr_congr 117 (fun k hk => (nameByte_section disk i n k hn hk).symm)

include hlen

theorem lookupEntry_eq (i n : Nat) (hi : i < 128) (hn : n < 4) :
    (lookupEntry (sectionOf disk i) filename.chars i n).map Prod.fst
      = if Hit disk filename.chars (i * 4 + n) then
          some (hitResult disk filename.chars (i * 4 + n)) else none := by
  unfold lookupEntry
  rw [← infoUsed_section _ _ _ hn]
  by_cases hused : infoUsed (entry disk (i * 4 + n)) = 0
  · rw [if_pos hused, if_neg (fun h : Hit disk _ _ => h.1 hused)]
    rfl
  rw [if_neg hused, strcmpEq_section _ _ _ _ hn hlen, cstr_section hterm i n hi hn hused]
  have hname := Mem.strcmpEq_iff (a := 1) filename.chars filename.nul_free
    (hterm (i * 4 + n) (by omega) hused)
  by_cases heq : nameOf (entry disk (i * 4 + n)) = filename.chars
  · rw [if_pos (hname.2 heq), if_pos (show Hit disk _ _ from ⟨hused, .inl heq.symm⟩), hitResult,
      if_pos heq]
    rfl
  rw [if_neg (fun h => heq (hname.1 h)), hitResult, if_neg heq]
  by_cases hrel : Related 47 filename.chars (nameOf (entry disk (i * 4 + n)))
  · rw [if_pos ((matchFolder_iff _ _ _ (Nat.lt_succ_self _)).2 hrel),
      if_pos (show Hit disk _ _ from ⟨hused, hrel⟩)]
    rfl
  · rw [if_neg (fun h => hrel ((matchFolder_iff _ _ _ (Nat.lt_succ_self _)).1 h)),
      if_neg (fun h : Hit disk _ _ => hrel h.2)]
    rfl

/-- The scan answers at the first record that is hit. -/
theorem lookupSections_eq (k i : Nat) (hk : i + k ≤ 128) :
    (lookupSections filename.chars k i (reliable disk)).1
      = ((List.range' (i * 4) (k * 4)).find? (fun fd => Hit disk filename.chars fd)).elim (-1)
          (hitResult disk filename.chars) := by
  induction k generalizing i with
  | zero => rfl
  | succ k ih =>
    have hsection : ((List.range 4).findSome?
        (lookupEntry (sectionOf disk i) filename.chars i)).map Prod.fst
          = (((List.range 4).map (fun n => i * 4 + n)).find?
              (fun fd => Hit disk filename.chars fd)).map (hitResult disk filename.chars) := by
      rw [List.map_findSome?, List.find?_map, Option.map_map]
      apply findSome?_eq_find?
      intro n hn
      exact lookupEntry_eq hterm filename hlen i n (by omega) (List.mem_range.1 hn)
    rw [range'_sections, List.find?_append]
    simp only [lookupSections, rkssReadSection_reliable]
    cases hfind : (List.range 4).findSome? (lookupEntry (sectionOf disk i) filename.chars i) with
    | none =>
      rw [hfind, Option.map_none, eq_comm, Option.map_eq_none_iff] at hsection
      rw [hsection, Option.none_or]
      exact ih (i + 1) (by omega)
    | some r =>
      rw [hfind, Option.map_some, eq_comm, Option.map_eq_some_iff] at hsection
      obtain ⟨fd, hfd, hr⟩ := hsection
      rw [hfd]
      exact hr.symm

end Scan

/-! ## What the lookup is for -/

section Meaning

variable (disk : Mem) (filename : List UInt8)

/-- Record `fd` is the file of that name. -/
def IsFile (fd : Nat) : Prop :=
  infoUsed (entry disk fd) ≠ 0 ∧ nameOf (entry disk fd) = filename
  deriving Decidable

/-- Record `fd` is a file in the folder of that name. -/
def InFolder (fd : Nat) : Prop :=
  infoUsed (entry disk fd) ≠ 0 ∧ Under 47 filename (nameOf (entry disk fd))
  deriving Decidable

/-- The descriptor of the first file of that name; -100 if there is none, but a folder; else -1. -/
def lookedUp : Int :=
  match (List.range 512).find? (fun fd => IsFile disk filename fd) with
  | some fd => fd
  | none => if (List.range 512).any (fun fd => InFolder disk filename fd) then -100 else -1

/-- Every used record in the folder of that name, and every one whose own name is a folder the name
    lies in, comes behind a file of that name, or there is no such file but the folder exists. -/
def Unobscured : Prop :=
  ∀ fd, fd < 512 → infoUsed (entry disk fd) ≠ 0 →
    Under 47 filename (nameOf (entry disk fd)) ∨ Under 47 (nameOf (entry disk fd)) filename →
    (∃ fd', fd' < fd ∧ IsFile disk filename fd') ∨
      ((∀ fd', fd' < 512 → ¬ IsFile disk filename fd') ∧ ∃ fd', fd' < 512 ∧ InFolder disk filename fd')

variable {disk filename}

theorem IsFile.hit {fd : Nat} (h : IsFile disk filename fd) : Hit disk filename fd :=
  ⟨h.1, .inl h.2.symm⟩

theorem InFolder.hit {fd : Nat} (h : InFolder disk filename fd) : Hit disk filename fd :=
  ⟨h.1, .inr (.inl h.2)⟩

theorem lookedUp_of_isFile {fd : Nat} (hfd : fd < 512) (h : IsFile disk filename fd)
    (hfirst : ∀ fd', fd' < fd → ¬ IsFile disk filename fd') : lookedUp disk filename = fd := by
  have hfind : (List.range 512).find? (fun fd => IsFile disk filename fd) = some fd := by
    rw [List.find?_range_eq_some]
    refine ⟨decide_eq_true h, List.mem_range.2 hfd, fun fd' hfd' => ?_⟩
    rw [decide_eq_false (hfirst fd' hfd')]
    rfl
  unfold lookedUp
  rw [hfind]

theorem lookedUp_of_no_file (h : ∀ fd, fd < 512 → ¬ IsFile disk filename fd) :
    lookedUp disk filename
      = if ∃ fd, fd < 512 ∧ InFolder disk filename fd then -100 else -1 := by
  have hfind : (List.range 512).find? (fun fd => IsFile disk filename fd) = none := by
    rw [List.find?_range_eq_none]
    intro fd hfd
    rw [decide_eq_false (h fd hfd)]
    rfl
  unfold lookedUp
  rw [hfind]
  simp only [List.any_eq_true, List.mem_range, decide_eq_true_eq]

theorem lookedUp_nonneg {fd : Nat} (hfd : fd < 512) (h : IsFile disk filename fd) :
    0 ≤ lookedUp disk filename := by
  cases hfind : (List.range 512).find? (fun fd => IsFile disk filename fd) with
  | none =>
    have hnone := List.find?_range_eq_none.1 hfind fd hfd
    rw [decide_eq_true h] at hnone
    cases hnone
  | some fd' =>
    unfold lookedUp
    rw [hfind]
    exact Int.natCast_nonneg fd'

end Meaning

/-- **On a table with NUL-terminated names, the lookup of a name of at most 116 characters answers
    the first file of that name, else the folder, else nothing, if and only if no other record is in
    the way.** -/
theorem rkssGetFileinfoByName_exact_iff (disk : Mem) (hterm : TerminatedNames disk)
    (filename : CName) (hlen : filename.chars.length ≤ 116) :
    (rkssGetFileinfoByName (reliable disk) filename.chars).1 = lookedUp disk filename.chars ↔
      Unobscured disk filename.chars := by
  have hscan := lookupSections_eq hterm filename hlen 128 0 (by omega)
  rw [Nat.zero_mul, show 128 * 4 = 512 from rfl, ← List.range_eq_range'] at hscan
  rw [rkssGetFileinfoByName, if_neg (by omega), hscan]
  cases hfind : (List.range 512).find? (fun fd => Hit disk filename.chars fd) with
  | none =>
    -- nothing is hit: no file, no folder
    have hnone : ∀ fd, fd < 512 → ¬ Hit disk filename.chars fd := by
      intro fd hfd
      simpa using List.find?_range_eq_none.1 hfind fd hfd
    rw [lookedUp_of_no_file (fun fd hfd h => hnone fd hfd h.hit), if_neg]
    · exact ⟨fun _ fd hfd hused hrel => absurd ⟨hused, .inr hrel⟩ (hnone fd hfd), fun _ => rfl⟩
    · rintro ⟨fd, hfd, h⟩
      exact hnone fd hfd h.hit
  | some fd =>
    obtain ⟨hhit, hfd, hbefore⟩ := List.find?_range_eq_some.1 hfind
    rw [decide_eq_true_eq] at hhit
    rw [List.mem_range] at hfd
    have hfirst : ∀ fd', fd' < fd → ¬ Hit disk filename.chars fd' := by
      intro fd' hfd'
      simpa using hbefore fd' hfd'
    rw [Option.elim_some, hitResult]
    by_cases hname : nameOf (entry disk fd) = filename.chars
    · -- the file itself is the first record that is hit
      have hfile : IsFile disk filename.chars fd := ⟨hhit.1, hname⟩
      rw [if_pos hname, lookedUp_of_isFile hfd hfile (fun fd' hfd' h => hfirst fd' hfd' h.hit)]
      refine ⟨fun _ fd' hfd' hused hrel => .inl ⟨fd, ?_, hfile⟩, fun _ => rfl⟩
      have hne : fd' ≠ fd := by
        rintro rfl
        rw [hname] at hrel
        exact hrel.elim (fun h => h.ne rfl) (fun h => h.ne rfl)
      have hle : ¬ fd' < fd := fun hlt => hfirst fd' hlt ⟨hused, .inr hrel⟩
      omega
    · -- another record is hit first
      have hrel := hhit.2.resolve_left (Ne.symm hname)
      rw [if_neg hname]
      by_cases hany : ∃ fd', fd' < 512 ∧ IsFile disk filename.chars fd'
      · obtain ⟨file, hlt, hfile⟩ := hany
        have hnonneg := lookedUp_nonneg hlt hfile
        constructor
        · omega
        intro h
        rcases h fd hfd hhit.1 hrel with ⟨fd', hfd', h'⟩ | ⟨hno, -⟩
        · exact absurd h'.hit (hfirst fd' hfd')
        · exact absurd hfile (hno file hlt)
      · have hno : ∀ fd', fd' < 512 → ¬ IsFile disk filename.chars fd' :=
          fun fd' hlt h => hany ⟨fd', hlt, h⟩
        rw [lookedUp_of_no_file hno]
        constructor
        · intro h fd' hfd' hused hrel'
          refine .inr ⟨hno, ?_⟩
          by_contra hnot
          rw [if_neg hnot] at h
          cases h
        · intro h
          rcases h fd hfd hhit.1 hrel with ⟨fd', hfd', h'⟩ | ⟨-, hex⟩
          · exact absurd h'.hit (hfirst fd' hfd')
          · rw [if_pos hex]

/-! ## Tables of empty files -/

/-- The table with new files from record `fd` on. -/
def addFiles : List CName → Nat → Mem → Mem
  | [], _, disk => disk
  | filename :: names, fd, disk =>
    addFiles names (fd + 1) (putEntry disk fd (createdInfo filename.chars 0))

theorem TerminatedNames.addFiles (names : List CName) (fd : Nat) {disk : Mem}
    (h : TerminatedNames disk) (hshort : ∀ filename ∈ names, filename.chars.length ≤ 116) :
    TerminatedNames (addFiles names fd disk) := by
  induction names generalizing fd disk with
  | nil => exact h
  | cons filename names ih =>
    refine ih (fd + 1) ?_ (fun name hname => hshort name (.tail _ hname))
    exact h.replace (Replaces.putEntry (fun _ _ => rfl) fd _)
      (terminated_congr (createdInfo_agree _ _)
        (terminated_strcpy _ (hshort filename ((.head _) ..))))

/-- The file `b` in the folder `a`. -/
def fileAB : CName := ⟨[97, 47, 98], by decide⟩

/-- With the files `b` and `a/b`, the name `a` is a folder, and nothing is in the way. -/
theorem rkssGetFileinfoByName_exact_iff_folder :
    (rkssGetFileinfoByName (reliable (addFiles [fileB, fileAB] 0 freshDisk)) fileA.chars).1 = -100 ∧
      Unobscured (addFiles [fileB, fileAB] 0 freshDisk) fileA.chars := by
  have hscan : (rkssGetFileinfoByName (reliable (addFiles [fileB, fileAB] 0 freshDisk))
      fileA.chars).1 = -100 := by decide +kernel
  have hmeaning : lookedUp (addFiles [fileB, fileAB] 0 freshDisk) fileA.chars = -100 := by
    decide +kernel
  exact ⟨hscan, (rkssGetFileinfoByName_exact_iff _
    (freshDisk_terminatedNames.addFiles _ _ (by decide)) fileA (by decide)).1
      (hscan.trans hmeaning.symm)⟩

/-- With `a/b` in front of it, the file `a` is not found; with the file `a` only, the name `a/b` is
    reported as a folder. -/
theorem rkssGetFileinfoByName_obscured :
    (TerminatedNames (addFiles [fileAB, fileA] 0 freshDisk) ∧
      (rkssGetFileinfoByName (reliable (addFiles [fileAB, fileA] 0 freshDisk)) fileA.chars).1 = -100 ∧
      lookedUp (addFiles [fileAB, fileA] 0 freshDisk) fileA.chars = 1) ∧
    TerminatedNames (addFiles [fileA] 0 freshDisk) ∧
      (rkssGetFileinfoByName (reliable (addFiles [fileA] 0 freshDisk)) fileAB.chars).1 = -100 ∧
      lookedUp (addFiles [fileA] 0 freshDisk) fileAB.chars = -1 :=
  ⟨⟨freshDisk_terminatedNames.addFiles _ _ (by decide), by decide +kernel, by decide +kernel⟩,
    freshDisk_terminatedNames.addFiles _ _ (by decide), by decide +kernel, by decide +kernel⟩

end Rkss
