import RkUboot.Rkss.Lookup

set_option autoImplicit false

/-! # Listing a directory

`rkss_get_dirs_by_name` copies the next path component of every used record below the directory to a
row of `dir_cache`, 117 rows of 12 bytes, and `tee_fs_readdir` hands the rows out. Neither the number
of rows nor the length of a name is checked, and a subdirectory with several files in it gets a row
for each. -/

namespace Rkss

open Path (Under)

/-! ## The model -/

/-- `dir_cache`, `dir_num` and `dir_seek`. `copied` records, for the statements only, where in
    `dir_cache` the copies of the last scan went and how many bytes they had. -/
structure DirState where
  dirCache : Mem
  dirNum : Nat
  dirSeek : Nat
  copied : List (Nat × Nat)

/-- The first call of `strtok(s, "/")`; `none` is `NULL`. -/
def strtok (s : List UInt8) : Option (List UInt8) :=
  match s.dropWhile (· = 47) with
  | [] => none
  | c :: cs => some (component (c :: cs))

/-- `strcpy(dir_cache[dir_num], subdir)` and the increment of `dir_num`. -/
def DirState.withRow (d : DirState) (subdir : List UInt8) : DirState :=
  { d with
    dirCache := d.dirCache.strcpy (12 * d.dirNum) subdir
    dirNum := d.dirNum + 1
    copied := (12 * d.dirNum, subdir.length + 1) :: d.copied }

/-- The same as far as it is defined: `none` when the copy runs past the end of the array. -/
def cacheRow (subdir : List UInt8) (d : DirState) : Option DirState :=
  if 12 * d.dirNum + (subdir.length + 1) ≤ 117 * 12 then some (d.withRow subdir) else none

/-- What `rkss_get_dirs_by_name` does with record `n` of a table section; `none` when the behaviour is
    undefined, also for a `strcpy` from `NULL`. -/
def cacheEntry (filename : List UInt8) (data : Mem) (d : DirState) (n : Nat) : Option DirState :=
  let name := 126 * n + 1
  if data (126 * n) = 0 then some d
  else if data.bytes name filename.length = filename ∧
      (data.cstr 512 name).length > filename.length then
    if data (name + filename.length) = 47 then
      match strtok (data.cstr 512 (name + filename.length + 1)) with
      | none => none
      | some subdir => cacheRow subdir d
    else some d
  else some d

/-- The section loop of `rkss_get_dirs_by_name`, `k` sections to go from `i`. -/
def cacheSections (filename : List UInt8) :
    Nat → Nat → BlockDev → DirState → Option (Int × DirState × BlockDev)
  | 0, _, dev, d => some (d.dirNum, d, dev)
  | k + 1, i, dev, d =>
    match rkssReadSection dev i with
    | (none, dev) => some (-1, d, dev)
    | (some data, dev) =>
      match (List.range 4).foldlM (cacheEntry filename data) d with
      | none => none
      | some d => cacheSections filename k (i + 1) dev d

/-- Model of `rkss_get_dirs_by_name`. -/
def rkssGetDirsByName (dev : BlockDev) (filename : List UInt8) (d : DirState) :
    Option (Int × DirState × BlockDev) :=
  if filename.length > 117 - 1 then some (-1, d, dev)
  else cacheSections filename 128 0 dev { d with dirNum := 0, copied := [] }

/-- Model of `tee_fs_opendir`, which returns 0 in any case. -/
def teeFsOpendir (dev : BlockDev) (dirname : List UInt8) (d : DirState) :
    Option (DirState × BlockDev) :=
  match rkssGetDirsByName dev dirname { d with dirSeek := 0 } with
  | none => none
  | some (_, d, dev) => some (d, dev)

/-- Model of `tee_fs_readdir`: the name it copies to the message, or `none` for -1. -/
def teeFsReaddir (d : DirState) : Option (List UInt8) × DirState :=
  if d.dirSeek = d.dirNum then (none, d)
  else (some (d.dirCache.cstr (117 * 12) (12 * d.dirSeek)), { d with dirSeek := d.dirSeek + 1 })

/-- The names `tee_fs_readdir` delivers until it returns -1; `none` if it has not in `fuel` calls. -/
def readAll : Nat → DirState → Option (List (List UInt8))
  | 0, _ => none
  | fuel + 1, d =>
    match teeFsReaddir d with
    | (none, _) => some []
    | (some name, d) => (readAll fuel d).map (name :: ·)

/-! ## What a listing is for -/

/-- The name of record `fd` below `dirname`, cut off after its next component. -/
def childAt (disk : Mem) (dirname : List UInt8) (fd : Nat) : Option (List UInt8) :=
  if infoUsed (entry disk fd) ≠ 0 ∧ Under 47 dirname (nameOf (entry disk fd)) then
    some (Path.first 47 ((nameOf (entry disk fd)).drop (dirname.length + 1)))
  else none

/-- The children of all used records below `dirname`, in the order of the table. -/
def childNames (disk : Mem) (dirname : List UInt8) : List (List UInt8) :=
  (List.range 512).filterMap (childAt disk dirname)

/-- `c` is the name of a file or directory in `dirname`. -/
def IsChild (disk : Mem) (dirname c : List UInt8) : Prop :=
  c ≠ [] ∧ 47 ∉ c ∧ ∃ fd, fd < 512 ∧ infoUsed (entry disk fd) ≠ 0 ∧
    (nameOf (entry disk fd) = dirname ++ 47 :: c ∨
      Under 47 (dirname ++ 47 :: c) (nameOf (entry disk fd)))

/-- No used record has a name with an empty path component. -/
def ProperNames (disk : Mem) : Prop :=
  ∀ fd, fd < 512 → infoUsed (entry disk fd) ≠ 0 → Path.NoEmpty 47 (nameOf (entry disk fd))

variable {c dirname t : List UInt8} {disk : Mem}

theorem childAt_of_under {fd : Nat}
    (hused : infoUsed (entry disk fd) ≠ 0) (ht : nameOf (entry disk fd) = dirname ++ 47 :: t) :
    childAt disk dirname fd = some (Path.first 47 t) := by
  unfold childAt
  rw [if_pos ⟨hused, Path.under_iff.2 ⟨t, ht⟩⟩, ht]
  simp

theorem mem_childNames (hproper : ProperNames disk) (dirname c : List UInt8) :
    c ∈ childNames disk dirname ↔ IsChild disk dirname c := by
  unfold childNames
  simp only [List.mem_filterMap, List.mem_range]
  constructor
  · rintro ⟨fd, hfd, h⟩
    by_cases hin : infoUsed (entry disk fd) ≠ 0 ∧ Under 47 dirname (nameOf (entry disk fd))
    · obtain ⟨hused, hunder⟩ := hin
      obtain ⟨t, ht⟩ := Path.under_iff.1 hunder
      rw [childAt_of_under hused ht] at h
      obtain rfl := Option.some.inj h
      have hproper' := hproper fd hfd hused
      rw [ht] at hproper'
      refine ⟨hproper'.first_ne_nil, Path.sep_notMem_first, fd, hfd, hused, ?_⟩
      cases hrest : Path.rest 47 t with
      | none => exact .inl (ht.trans (congrArg (dirname ++ 47 :: ·) (Path.eq_first hrest)))
      | some u =>
        refine .inr (Path.under_iff.2 ⟨u, ?_⟩)
        rw [ht, List.append_assoc, List.cons_append, ← Path.eq_first_append hrest]
    · rw [childAt, if_neg hin] at h
      cases h
  · rintro ⟨-, hsep, fd, hfd, hused, hname | hunder⟩
    · refine ⟨fd, hfd, ?_⟩
      rw [childAt_of_under hused hname, Path.first_of_notMem hsep]
    obtain ⟨u, hu⟩ := Path.under_iff.1 hunder
    rw [List.append_assoc, List.cons_append] at hu
    refine ⟨fd, hfd, ?_⟩
    rw [childAt_of_under hused hu, Path.first_append_sep, Path.first_of_notMem hsep]

/-! ## The scan -/

/-- The rows are filled one after the other. -/
def cacheRows : List (List UInt8) → DirState → Option DirState
  | [], d => some d
  | c :: cs, d =>
    match cacheRow c d with
    | none => none
    | some d => cacheRows cs d

theorem cacheRows_append (cs cs' : List (List UInt8)) (d : DirState) :
    cacheRows (cs ++ cs') d = (cacheRows cs d).bind (cacheRows cs') := by
  induction cs generalizing d with
  | nil => rfl
  | cons c cs ih =>
    rw [List.cons_append, cacheRows, cacheRows]
    cases cacheRow c d with
    | none => rfl
    | some d => exact ih d

/-- A string that starts with a component is cut off behind it. -/
theorem strtok_of_first (h : Path.first 47 t ≠ []) :
    strtok t = some (Path.first 47 t) := by
  cases t with
  | nil => exact absurd rfl h
  | cons c cs =>
    have hc : c ≠ 47 := by
      rintro rfl
      exact h rfl
    unfold strtok
    rw [List.dropWhile_cons_of_neg (by simpa using hc)]
    rfl

section Scan

variable {disk : Mem} (hterm : TerminatedNames disk) (hproper : ProperNames disk)
  (filename : List UInt8)

include hterm hproper

theorem cacheEntry_eq (i n : Nat) (hi : i < 128) (hn : n < 4) (d : DirState) :
    cacheEntry filename (sectionOf disk i) d n
      = match childAt disk filename (i * 4 + n) with
        | none => some d
        | some c => cacheRow c d := by
  have hsection := infoUsed_section disk i n hn
  unfold cacheEntry
  by_cases hused : infoUsed (entry disk (i * 4 + n)) = 0
  · rw [if_pos (hsection.symm.trans hused), childAt, if_neg (fun h => h.1 hused)]
  rw [if_neg (fun h => hused (hsection.trans h))]
  obtain ⟨k, hk, hz⟩ := terminated_section hterm i n hi hn hused
  obtain ⟨hfuel, hnul, hchars, hend⟩ :=
    Mem.cstr_spec (show ∃ k, k < 512 ∧ _ from ⟨k, by omega, hz⟩)
  simp only [cstr_section hterm i n hi hn hused] at hfuel hnul hchars hend ⊢
  by_cases hunder : Under 47 filename (nameOf (entry disk (i * 4 + n)))
  · obtain ⟨t, ht⟩ := Path.under_iff.1 hunder
    have hfirst := hproper (i * 4 + n) (by omega) hused
    rw [childAt_of_under hused ht]
    simp only [ht, List.length_append, List.length_cons] at hfuel hnul hchars hend hfirst ⊢
    have hbytes : (sectionOf disk i).bytes (126 * n + 1) filename.length = filename := by
      apply List.ext_getElem (by simp [Mem.bytes])
      intro j hj hj'
      simp only [Mem.bytes, List.getElem_map, List.getElem_range]
      rw [hchars j (by omega), List.getElem_append_left hj']
    have hslash : sectionOf disk i (126 * n + 1 + filename.length) = 47 := by
      rw [hchars filename.length (by omega)]
      simp
    have hrest : (sectionOf disk i).cstr 512 (126 * n + 1 + filename.length + 1) = t := by
      apply Mem.cstr_eq _ _ _ _ (fun h => hnul (by simp [h])) (by omega)
      · intro j hj
        rw [show 126 * n + 1 + filename.length + 1 + j
          = 126 * n + 1 + (filename.length + 1 + j) by omega, hchars _ (by omega)]
        simp [List.getElem_append_right, Nat.add_assoc, Nat.add_comm 1]
      · rwa [show 126 * n + 1 + filename.length + 1 + t.length
          = 126 * n + 1 + (filename.length + (t.length + 1)) by omega]
    rw [if_pos ⟨hbytes, by omega⟩, if_pos hslash, hrest, strtok_of_first hfirst.first_ne_nil]
  · have hnone : childAt disk filename (i * 4 + n) = none := by
      rw [childAt, if_neg (fun h => hunder h.2)]
    simp only [hnone]
    by_cases hmatch : (sectionOf disk i).bytes (126 * n + 1) filename.length = filename ∧
        (nameOf (entry disk (i * 4 + n))).length > filename.length
    · rw [if_pos hmatch, if_neg]
      intro hslash
      refine hunder (Path.under_iff_take.2 ⟨?_, ?_⟩)
      · apply List.ext_getElem (by simp; omega)
        intro j hj hj'
        have hget := congrArg (fun l => l[j]?) hmatch.1
        simp only [Mem.bytes, List.getElem?_map, List.getElem?_range hj', Option.map_some,
          List.getElem?_eq_getElem hj', Option.some.injEq] at hget
        rw [List.getElem_take, ← hchars j (by omega), hget]
      · rw [List.getElem?_eq_getElem hmatch.2, ← hchars filename.length hmatch.2, hslash]
    · rw [if_neg hmatch]

theorem cacheEntries_eq (i : Nat) (hi : i < 128) (l : List Nat) (hl : ∀ n ∈ l, n < 4)
    (d : DirState) :
    l.foldlM (cacheEntry filename (sectionOf disk i)) d
      = cacheRows (l.filterMap (fun n => childAt disk filename (i * 4 + n))) d := by
  induction l generalizing d with
  | nil => rfl
  | cons n l ih =>
    have ih' := ih (fun m hm => hl m (.tail _ hm))
    rw [List.foldlM_cons, List.filterMap_cons,
      cacheEntry_eq hterm hproper filename i n hi (hl n ((.head _) ..))]
    cases childAt disk filename (i * 4 + n) with
    | none => exact ih' d
    | some c =>
      simp only [cacheRows]
      cases cacheRow c d with
      | none => rfl
      | some d => exact ih' d

/-- The scan fills a row for every record below the directory. -/
theorem cacheSections_eq (k i : Nat) (hk : i + k ≤ 128) (d : DirState) :
    cacheSections filename k i (reliable disk) d
      = (cacheRows ((List.range' (i * 4) (k * 4)).filterMap (childAt disk filename)) d).map
          (fun d => ((d.dirNum : Int), d, reliable disk)) := by
  induction k generalizing i d with
  | zero => rfl
  | succ k ih =>
    rw [range'_sections, List.filterMap_append, List.filterMap_map, cacheRows_append]
    simp only [cacheSections, rkssReadSection_reliable,
      cacheEntries_eq hterm hproper filename i (by omega) (List.range 4)
        (fun n hn => List.mem_range.1 hn) d]
    change _ = ((cacheRows ((List.range 4).filterMap (fun n => childAt disk filename (i * 4 + n)))
      d).bind _).map _
    cases cacheRows ((List.range 4).filterMap (fun n => childAt disk filename (i * 4 + n))) d with
    | none => rfl
    | some d => exact ih (i + 1) (by omega) d

end Scan

/-! ## The rows -/

/-- The bytes `w.1 .. w.1 + w.2 - 1` of `dir_cache` lie in one row. -/
def InRow (w : Nat × Nat) : Prop := ∃ row, row < 117 ∧ 12 * row ≤ w.1 ∧ w.1 + w.2 ≤ 12 * row + 12

variable {d d' : DirState}

theorem cacheRow_eq_some (h : cacheRow c d = some d') :
    12 * d.dirNum + (c.length + 1) ≤ 117 * 12 ∧ d' = d.withRow c := by
  unfold cacheRow at h
  split at h
  · next hfits => exact ⟨hfits, (Option.some.inj h).symm⟩
  · cases h

/-- A scan that stays in the array: what was copied where. -/
theorem cacheRows_copied (cs : List (List UInt8)) (h : cacheRows cs d = some d') :
    (∀ w ∈ d.copied, w ∈ d'.copied) ∧ (∀ c ∈ cs, ∃ row, (12 * row, c.length + 1) ∈ d'.copied) ∧
      (cs ≠ [] → d.dirNum + cs.length ≤ 117) := by
  induction cs generalizing d with
  | nil =>
    obtain rfl := Option.some.inj h
    exact ⟨fun _ hw => hw, fun c hc => absurd hc (by simp), fun hne => absurd rfl hne⟩
  | cons c cs ih =>
    rw [cacheRows] at h
    cases hrow : cacheRow c d with
    | none =>
      rw [hrow] at h
      cases h
    | some d₁ =>
      rw [hrow] at h
      obtain ⟨hfits, rfl⟩ := cacheRow_eq_some hrow
      obtain ⟨hold, hnew, hnum⟩ := ih h
      refine ⟨fun w hw => hold w (.tail _ hw), ?_, fun _ => ?_⟩
      · intro c' hc'
        rcases List.mem_cons.1 hc' with rfl | hc'
        · exact ⟨d.dirNum, hold _ ((.head _) ..)⟩
        · exact hnew c' hc'
      · rw [List.length_cons]
        by_cases hcs : cs = []
        · rw [hcs, List.length_nil]
          omega
        · have hnum' : d.dirNum + 1 + cs.length ≤ 117 := hnum hcs
          omega

/-- A row that fits is read back, whatever happens to the rows behind it. -/
theorem cstr_row {cache cache' : Mem} {row : Nat} (hc : c.length ≤ 11)
    (hnul : 0 ∉ c)
    (h : ∀ x, x < 12 * (row + 1) → cache' x = cache.strcpy (12 * row) c x) :
    cache'.cstr (117 * 12) (12 * row) = c := by
  have hz : cache' (12 * row + c.length) = 0 := by
    rw [h _ (by omega), Mem.strcpy_apply_nul]
  have hagree : cache'.AgreeOn (cache.strcpy (12 * row) c) (12 * row) (12 * row + 12) :=
    fun x _ hx => h x (by omega)
  rw [Mem.cstr_of_terminated (by decide : 12 ≤ 117 * 12) ⟨c.length, by omega, hz⟩, hagree.cstr]
  exact Mem.cstr_strcpy _ _ _ _ hnul (by omega)

/-- Rows that fit: the scan ends, every copy lies in its row, and the rows are the names. -/
theorem cacheRows_fit (cs : List (List UInt8)) (d : DirState) (hcs : ∀ c ∈ cs, c.length ≤ 11 ∧ 0 ∉ c)
    (hnum : d.dirNum + cs.length ≤ 117) :
    ∃ d', cacheRows cs d = some d' ∧ d'.dirNum = d.dirNum + cs.length ∧ d'.dirSeek = d.dirSeek ∧
      (∀ w ∈ d'.copied, w ∈ d.copied ∨ InRow w) ∧
      (∀ x, x < 12 * d.dirNum → d'.dirCache x = d.dirCache x) ∧
      (List.range' d.dirNum cs.length).map (fun row => d'.dirCache.cstr (117 * 12) (12 * row))
        = cs := by
  induction cs generalizing d with
  | nil => exact ⟨d, rfl, rfl, rfl, fun _ hw => .inl hw, fun _ _ => rfl, rfl⟩
  | cons c cs ih =>
    obtain ⟨hc, hnul⟩ := hcs c ((.head _) ..)
    rw [List.length_cons] at hnum
    have hrow : cacheRow c d = some (d.withRow c) := if_pos (by omega)
    have hfree : (d.withRow c).dirNum + cs.length ≤ 117 := by
      change d.dirNum + 1 + cs.length ≤ 117
      omega
    obtain ⟨d', hrows, hnum', hseek, hcopied, hframe, hread⟩ :=
      ih (d.withRow c) (fun c' hc' => hcs c' (.tail _ hc')) hfree
    rw [cacheRows, hrow]
    refine ⟨d', hrows, ?_, hseek, ?_, ?_, ?_⟩
    · rw [hnum', List.length_cons]
      change d.dirNum + 1 + cs.length = _
      omega
    · intro w hw
      rcases hcopied w hw with hw | hw
      · rcases List.mem_cons.1 hw with rfl | hw
        · exact .inr ⟨d.dirNum, by omega, Nat.le_refl _, by simp only; omega⟩
        · exact .inl hw
      · exact .inr hw
    · intro x hx
      have hx' : x < 12 * (d.dirNum + 1) := by omega
      rw [hframe x hx']
      exact Mem.strcpy_apply_out _ _ _ _ (by omega)
    · change (List.range' (d.dirNum + 1) cs.length).map _ = cs at hread
      rw [List.length_cons, List.range'_succ, List.map_cons, hread,
        cstr_row hc hnul (fun x hx => hframe x hx)]

/-- `tee_fs_readdir` hands out the rows in order. -/
theorem readAll_rows (k : Nat) (d : DirState) (h : d.dirNum = d.dirSeek + k) :
    readAll (k + 1) d
      = some ((List.range' d.dirSeek k).map (fun row => d.dirCache.cstr (117 * 12) (12 * row))) := by
  induction k generalizing d with
  | zero =>
    rw [readAll, teeFsReaddir, if_pos (by omega)]
    rfl
  | succ k ih =>
    have hnext := ih { d with dirSeek := d.dirSeek + 1 } (by simp only; omega)
    rw [readAll, teeFsReaddir, if_neg (by omega)]
    simp only [hnext, Option.map_some, List.range'_succ, List.map_cons]

/-! ## The listing -/

/-- The characters of a child are those of a stored name. -/
theorem nul_notMem_childNames (hterm : TerminatedNames disk)
    (hc : c ∈ childNames disk dirname) : 0 ∉ c := by
  obtain ⟨fd, hfd, h⟩ := List.mem_filterMap.1 hc
  unfold childAt at h
  split at h
  · next hin =>
    obtain rfl := Option.some.inj h
    have hnul := (Mem.cstr_spec (hterm fd (List.mem_range.1 hfd) hin.1)).2.1
    intro h0
    exact hnul (List.mem_of_mem_drop ((List.takeWhile_prefix _).subset h0))
  · cases h

/-- `tee_fs_opendir` fills a row for every name in `childNames`. -/
theorem teeFsOpendir_eq (hterm : TerminatedNames disk) (hproper : ProperNames disk)
    (dirname : CName) (hlen : dirname.chars.length ≤ 116) (d₀ : DirState) :
    teeFsOpendir (reliable disk) dirname.chars d₀
      = (cacheRows (childNames disk dirname.chars)
          { d₀ with dirNum := 0, dirSeek := 0, copied := [] }).map (fun d => (d, reliable disk)) := by
  have hscan := cacheSections_eq hterm hproper dirname.chars 128 0 (by omega)
    { d₀ with dirNum := 0, dirSeek := 0, copied := [] }
  rw [Nat.zero_mul, show 128 * 4 = 512 from rfl, ← List.range_eq_range'] at hscan
  unfold teeFsOpendir rkssGetDirsByName
  rw [if_neg (by omega)]
  simp only [hscan]
  unfold childNames
  cases cacheRows ((List.range 512).filterMap (childAt disk dirname.chars))
    { d₀ with dirNum := 0, dirSeek := 0, copied := [] } <;> rfl

/-- Opening `dirname` and reading it to the end delivers every name in it exactly once, and every
    copy to `dir_cache` stays in the array and in its row. -/
def ListsExactly (disk : Mem) (dirname : List UInt8) (d₀ : DirState) : Prop :=
  ∃ d dev, teeFsOpendir (reliable disk) dirname d₀ = some (d, dev) ∧ (∀ w ∈ d.copied, InRow w) ∧
    ∃ names, readAll (d.dirNum + 1) d = some names ∧ names.Nodup ∧
      ∀ c, c ∈ names ↔ IsChild disk dirname c

/-- **On a table with NUL-terminated names without empty components, a directory is listed exactly,
    with every copy in its row, if and only if at most 117 records lie below it, the next component
    of each has at most 11 characters, and no two have the same one.** -/
theorem listsExactly_iff (disk : Mem) (hterm : TerminatedNames disk) (hproper : ProperNames disk)
    (dirname : CName) (hlen : dirname.chars.length ≤ 116) (d₀ : DirState) :
    ListsExactly disk dirname.chars d₀ ↔
      (childNames disk dirname.chars).length ≤ 117 ∧
        (∀ c ∈ childNames disk dirname.chars, c.length ≤ 11) ∧
        (childNames disk dirname.chars).Nodup := by
  have hopen := teeFsOpendir_eq hterm hproper dirname hlen d₀
  have hmem := mem_childNames hproper dirname.chars
  have hnul : ∀ c ∈ childNames disk dirname.chars, 0 ∉ c := fun c hc => nul_notMem_childNames hterm hc
  unfold ListsExactly
  rw [hopen]
  generalize childNames disk dirname.chars = cs at hmem hnul ⊢
  -- rows that fit are read back as they are
  have hfit : cs.length ≤ 117 → (∀ c ∈ cs, c.length ≤ 11) →
      ∃ d, cacheRows cs { d₀ with dirNum := 0, dirSeek := 0, copied := [] } = some d ∧
        (∀ w ∈ d.copied, InRow w) ∧ readAll (d.dirNum + 1) d = some cs := by
    intro hnum hshort
    obtain ⟨d, hrows, hdirNum, hseek, hcopied, -, hread⟩ := cacheRows_fit cs
      { d₀ with dirNum := 0, dirSeek := 0, copied := [] } (fun c hc => ⟨hshort c hc, hnul c hc⟩)
      (by simpa using hnum)
    simp only [Nat.zero_add] at hdirNum hread
    refine ⟨d, hrows, fun w hw => (hcopied w hw).resolve_left (by simp), ?_⟩
    rw [readAll_rows d.dirNum d (by rw [hseek]; simp only; omega), hseek, hdirNum, hread]
  constructor
  · rintro ⟨d, dev, hd, hrow, names, hnames, hnodup, -⟩
    obtain ⟨d', hrows, hpair⟩ := Option.map_eq_some_iff.1 hd
    obtain ⟨rfl, -⟩ := Prod.mk.inj hpair
    obtain ⟨-, hcopied, hnum⟩ := cacheRows_copied cs hrows
    have hnum' : cs.length ≤ 117 := by
      by_cases hcs : cs = []
      · simp [hcs]
      · simpa using hnum hcs
    have hshort : ∀ c ∈ cs, c.length ≤ 11 := by
      intro c hc
      obtain ⟨row, hw⟩ := hcopied c hc
      obtain ⟨row', -, hlo, hhi⟩ := hrow _ hw
      omega
    obtain ⟨d, hrows', -, hread⟩ := hfit hnum' hshort
    obtain rfl := Option.some.inj (hrows.symm.trans hrows')
    obtain rfl := Option.some.inj (hnames.symm.trans hread)
    exact ⟨hnum', hshort, hnodup⟩
  · rintro ⟨hnum, hshort, hnodup⟩
    obtain ⟨d, hrows, hrow, hread⟩ := hfit hnum hshort
    exact ⟨d, reliable disk, by rw [hrows, Option.map_some], hrow, cs, hread, hnodup, hmem⟩

/-- The state at the start. -/
def noDir : DirState := ⟨Mem.zero, 0, 0, []⟩

theorem ProperNames.addFiles (names : List CName) (fd : Nat) (h : ProperNames disk)
    (hnames : ∀ filename ∈ names, filename.chars.length ≤ 116 ∧ Path.NoEmpty 47 filename.chars) :
    ProperNames (addFiles names fd disk) := by
  induction names generalizing fd disk with
  | nil => exact h
  | cons filename names ih =>
    refine ih (fd + 1) ?_ (fun name hname => hnames name (.tail _ hname))
    obtain ⟨hshort, hproper⟩ := hnames filename ((.head _) ..)
    intro fd' hfd' hused
    by_cases he : fd' = fd
    · subst he
      rw [entry_putEntry_same, nameOf_trim, nameOf_congr (createdInfo_agree _ _),
        nameOf_strcpy _ hshort]
      exact hproper
    · rw [entry_putEntry_ne _ _ _ _ he] at hused ⊢
      exact h fd' hfd' hused

theorem freshDisk_properNames : ProperNames freshDisk :=
  fun fd hfd hused => absurd (infoUsed_freshDisk fd hfd) hused

/-- The file `c` in the folder `a`, and the file `c` in the folder `b` of it. -/
def fileAC : CName := ⟨[97, 47, 99], by decide⟩

@[inherit_doc fileAC]
def fileABC : CName := ⟨[97, 47, 98, 47, 99], by decide⟩

/-- With `a/b/c`, `b` and `a/c`, the folder `a` is listed exactly. -/
theorem listsExactly_iff_two_children :
    childNames (addFiles [fileABC, fileB, fileAC] 0 freshDisk) fileA.chars = [[98], [99]] ∧
      ListsExactly (addFiles [fileABC, fileB, fileAC] 0 freshDisk) fileA.chars noDir := by
  have hnames : childNames (addFiles [fileABC, fileB, fileAC] 0 freshDisk) fileA.chars
      = [[98], [99]] := by decide +kernel
  refine ⟨hnames, (listsExactly_iff _ (freshDisk_terminatedNames.addFiles _ _ (by decide))
    (freshDisk_properNames.addFiles _ _ (by decide)) fileA (by decide) noDir).2 ?_⟩
  rw [hnames]
  decide

/-- The file of twelve characters in the folder `a`. -/
def fileLong : CName := ⟨97 :: 47 :: List.replicate 12 98, by decide⟩

/-- With `a/b/c` and `a/b`, the folder `a` is listed with `b` twice. With a name of twelve
    characters in it, the terminator is written to the first byte of the next row. -/
theorem listing_repeats_and_overruns :
    (TerminatedNames (addFiles [fileABC, fileAB] 0 freshDisk) ∧
      ProperNames (addFiles [fileABC, fileAB] 0 freshDisk) ∧
      ∃ d dev, teeFsOpendir (reliable (addFiles [fileABC, fileAB] 0 freshDisk)) fileA.chars noDir
        = some (d, dev) ∧ readAll (d.dirNum + 1) d = some [[98], [98]]) ∧
    TerminatedNames (addFiles [fileLong] 0 freshDisk) ∧
      ProperNames (addFiles [fileLong] 0 freshDisk) ∧
      ∃ d dev, teeFsOpendir (reliable (addFiles [fileLong] 0 freshDisk)) fileA.chars noDir
        = some (d, dev) ∧ d.copied = [(0, 13)] := by
  refine ⟨⟨freshDisk_terminatedNames.addFiles _ _ (by decide),
    freshDisk_properNames.addFiles _ _ (by decide), ?_⟩,
    freshDisk_terminatedNames.addFiles _ _ (by decide),
    freshDisk_properNames.addFiles _ _ (by decide), ?_⟩
  · have h : (teeFsOpendir (reliable (addFiles [fileABC, fileAB] 0 freshDisk)) fileA.chars
        noDir).map (fun r => readAll (r.1.dirNum + 1) r.1) = some (some [[98], [98]]) := by
      decide +kernel
    obtain ⟨⟨d, dev⟩, hd, hread⟩ := Option.map_eq_some_iff.1 h
    exact ⟨d, dev, hd, hread⟩
  · have h : (teeFsOpendir (reliable (addFiles [fileLong] 0 freshDisk)) fileA.chars
        noDir).map (fun r => r.1.copied) = some [(0, 13)] := by
      decide +kernel
    obtain ⟨⟨d, dev⟩, hd, hcopied⟩ := Option.map_eq_some_iff.1 h
    exact ⟨d, dev, hd, hcopied⟩

end Rkss
