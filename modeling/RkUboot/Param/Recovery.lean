import RkUboot.Param.ParseParam

set_option autoImplicit false

/-! # The command line for the recovery system (`rkloader/rkloader.c`)

Before the recovery system is started, `rkloader_change_cmd_for_recovery` puts an entry for the
parameter file in front of the partition table of the command line. The table that is parsed from the
new line is the old one behind that entry, if all of its entries have names: an entry without a name is
named after its number, and that is one more now. -/

open Fastboot

namespace Param

/-! ## The command line -/

/-- The members of `BootInfo` that are for the command line. -/
structure BootInfo where
  cmdLine : List UInt8
  cmdMtd : CmdlineMtdPartition
  indexMisc : Int
  indexKernel : Int
  indexBoot : Int
  indexRecovery : Int
  indexSystem : Int
  indexBackup : Int
  ramdiskLoadAddr : Nat
  ramdiskOffset : Nat
  ramdiskSize : Nat

/-- A zeroed `BootInfo` with a command line. -/
def BootInfo.zeroed (cmdLine : List UInt8) : BootInfo :=
  ⟨cmdLine, ⟨Mem.zero, []⟩, 0, 0, 0, 0, 0, 0, 0, 0, 0⟩

/-- Model of `find_mtd_part`. -/
def findMtdPart (mtd : CmdlineMtdPartition) (partName : List UInt8) : Int :=
  match mtd.parts.findIdx? (fun part => part.name = partName) with
  | some i => i
  | none => -1

/-- What follows `initrd=` in the first token that starts with it, at most `k` tokens. -/
def findInitrd : Nat → List UInt8 → Option (List UInt8)
  | 0, _ => none
  | k + 1, s =>
    match strtok s with
    | none => none
    | some (token, rest) =>
      if (ascii "initrd=").isPrefixOf token then some (token.drop (ascii "initrd=").length)
      else findInitrd k rest

/-- Model of `get_rdInfo`. -/
def getRdInfo (info : BootInfo) : BootInfo :=
  match findInitrd (info.cmdLine.length + 1) info.cmdLine with
  | none => { info with ramdiskLoadAddr := 0, ramdiskOffset := 0, ramdiskSize := 0 }
  | some token =>
    let addr := simpleStrtoul 0 token
    let size := if addr.2.head? = some 44 then (simpleStrtoul 0 addr.2.tail).1 else 0x80000
    { info with ramdiskLoadAddr := addr.1 % 2 ^ 32, ramdiskOffset := 0, ramdiskSize := size % 2 ^ 32 }

/-- Model of `parse_cmdline`. -/
def parseCmdline (info : BootInfo) : Option (Int × BootInfo) :=
  (mtdpartParse info.cmdLine ⟨info.cmdMtd.mtdId.set8 0 0, []⟩).map (fun r =>
    if r.1 = 0 then (-2, { info with cmdMtd := r.2 })
    else
      let info := getRdInfo { info with
        cmdMtd := r.2
        indexMisc := findMtdPart r.2 (ascii "misc")
        indexKernel := findMtdPart r.2 (ascii "kernel")
        indexBoot := findMtdPart r.2 (ascii "boot")
        indexRecovery := findMtdPart r.2 (ascii "recovery")
        indexSystem := findMtdPart r.2 (ascii "system")
        indexBackup := findMtdPart r.2 (ascii "backup") }
      (if info.indexMisc < 0 ∨ info.indexKernel < 0 ∨ info.indexBoot < 0 ∨ info.indexRecovery < 0 then -1
        else 0, info))

/-! ## The new command line -/

/-- Model of `strstr`: the index of the first occurrence. -/
def strstr (sub : List UInt8) : List UInt8 → Option Nat
  | [] => if sub = [] then some 0 else none
  | c :: cs => if sub.isPrefixOf (c :: cs) then some 0 else (strstr sub cs).map (· + 1)

/-- The text of the entry for the parameter file, with the comma behind it. -/
def parameterEntry : List UInt8 := ascii "0x00002000@0x00000000(parameter),"

/-- What is looked for in front of the entries of a table. -/
def findText (id : List UInt8) : List UInt8 := mtdpartsKey ++ id ++ ascii ":"

/-- `szFind`. -/
def szFind (info : BootInfo) : List UInt8 := findText (info.cmdMtd.mtdId.cstr 64 0)

/-- The entry is put behind `szFind`; both calls of `snprintf` cut at the size of their arrays. -/
def insertParameter (find cmdLine : List UInt8) : List UInt8 :=
  match strstr find cmdLine with
  | none => cmdLine
  | some i =>
    let s := i + find.length
    let tmp := (parameterEntry ++ cmdLine.drop s).take (maxLineChar - 1)
    cmdLine.take s ++ tmp.take (maxLineChar - s - 1)

/-- `SYS_KERNRL_REBOOT_FLAG|BOOT_RECOVER`. -/
def recoverFlag : Nat := 0xC3524203

/-- Model of `rkloader_change_cmd_for_recovery`: the flag for the loader, if it is set, and the new
    `BootInfo`. There is no result if `mtd_id` has no terminator or `strcat` writes behind `cmd_line`. -/
def changeCmdForRecovery (info : BootInfo) (recCmd : List UInt8) : Option (Option Nat × BootInfo) :=
  if 0 ≤ info.indexRecovery then
    let cmdLine := insertParameter (szFind info) info.cmdLine ++ recCmd
    if (info.cmdMtd.mtdId.cstr 64 0).length = 64 ∨ maxLineChar ≤ cmdLine.length then none
    else some (some recoverFlag, { info with cmdLine := cmdLine })
  else some (none, info)

/-- The tokens of a line. -/
def tokens (s : List UInt8) : List (List UInt8) := Scan.all strtok List.length s

/-- `sub` is in `s` at `i`. -/
def OccursAt (sub s : List UInt8) (i : Nat) : Prop := sub <+: s.drop i
  deriving Decidable

instance (before : List UInt8) : Decidable (TokenStart before) := inferInstanceAs (Decidable (_ ∨ _))

/-- `sub` is in `s` once, at the start of a token. -/
def OnceAtToken (sub s : List UInt8) : Prop :=
  ∃ i ∈ List.range (s.length + 1), OccursAt sub s i ∧ TokenStart (s.take i) ∧
    ∀ j ∈ List.range (s.length + 1), OccursAt sub s j → j = i
  deriving Decidable

/-! ## Entries with names -/

variable {parts r : List DiskPartition}

section Named

variable {k : Nat} {parts name rest : List UInt8} {table : List DiskPartition}

theorem getPart_of_named (h : givenName (getOffset (getSize parts).2).2 = some (some name, rest))
    (hshort : name.length < 32) :
    getPart k parts table = match k with
      | 0 => some (table ++ [entryOf parts name])
      | k + 1 =>
        if (skipOptions rest).head? = some 44 then
          getPart k (skipOptions rest).tail (table ++ [entryOf parts name])
        else some (table ++ [entryOf parts name]) := by
  refine getPart_of_some h (fun text htext => ?_)
  obtain rfl := Option.some.inj htext
  exact hshort

/-- What the first entry can be if all have names and the table has a result. -/
theorem givenName_cases (hnamed : none ∉ givenNames k parts)
    (h : getPart k parts table = some r) :
    givenName (getOffset (getSize parts).2).2 = none
      ∨ ∃ name rest, givenName (getOffset (getSize parts).2).2 = some (some name, rest)
          ∧ name.length < 32 := by
  cases hname : givenName (getOffset (getSize parts).2).2 with
  | none => exact .inl rfl
  | some p =>
    obtain ⟨name, rest⟩ := p
    cases name with
    | none =>
      refine absurd ?_ hnamed
      rw [givenNames, hname]
      exact .head _
    | some name =>
      exact .inr ⟨name, rest, rfl, short_of_getPart hname h name rfl⟩

theorem named_tail (hnamed : none ∉ givenNames (k + 1) parts)
    (h : givenName (getOffset (getSize parts).2).2 = some (some name, rest))
    (hcomma : (skipOptions rest).head? = some 44) : none ∉ givenNames k (skipOptions rest).tail := by
  intro hmem
  refine hnamed ?_
  rw [givenNames, h]
  simp only [if_pos hcomma]
  exact .tail _ hmem

/-- Entries with names do not depend on the table before them; and if they did not need all of the room,
    they get along with one less. -/
theorem getPart_elsewhere (hnamed : none ∉ givenNames (k + 1) parts)
    (h : getPart (k + 1) parts table = some r) (hroom : r.length ≤ table.length + k + 1) :
    ∃ ps, r = table ++ ps ∧ ∀ table', getPart k parts table' = some (table' ++ ps) := by
  induction k generalizing parts table with
  | zero =>
    rcases givenName_cases hnamed h with hnone | ⟨name, rest, hname, hshort⟩
    · rw [getPart_of_unclosed hnone] at h
      refine ⟨[], by simpa using (Option.some.inj h).symm, fun table' => ?_⟩
      rw [getPart_of_unclosed hnone, List.append_nil]
    rw [getPart_of_named hname hshort] at h
    refine ⟨[entryOf parts name], ?_, fun table' => getPart_of_named hname hshort⟩
    dsimp only at h
    split at h
    · next hcomma =>
      -- a second entry would need the room
      rcases givenName_cases (named_tail hnamed hname hcomma) h with
        hnone | ⟨name', rest', hname', hshort'⟩
      · rw [getPart_of_unclosed hnone] at h
        exact (Option.some.inj h).symm
      rw [getPart_of_named hname' hshort'] at h
      have := congrArg List.length (Option.some.inj h)
      simp only [List.length_append, List.length_singleton] at this
      omega
    · exact (Option.some.inj h).symm
  | succ k ih =>
    rcases givenName_cases hnamed h with hnone | ⟨name, rest, hname, hshort⟩
    · rw [getPart_of_unclosed hnone] at h
      refine ⟨[], by simpa using (Option.some.inj h).symm, fun table' => ?_⟩
      rw [getPart_of_unclosed hnone, List.append_nil]
    rw [getPart_of_named hname hshort] at h
    dsimp only at h
    split at h
    · next hcomma =>
      obtain ⟨ps, rfl, hps⟩ := ih (named_tail hnamed hname hcomma) h
        (by rw [List.length_append, List.length_singleton]; omega)
      refine ⟨entryOf parts name :: ps, by simp, fun table' => ?_⟩
      rw [getPart_of_named hname hshort]
      simp only [if_pos hcomma, hps, List.append_assoc, List.singleton_append]
    · next hcomma =>
      refine ⟨[entryOf parts name], (Option.some.inj h).symm, fun table' => ?_⟩
      rw [getPart_of_named hname hshort]
      simp only [if_neg hcomma]

end Named

/-! ## The place of the entry -/

variable {i : Nat}

section Place

variable {sub s before after : List UInt8}

theorem occursAt_append (before sub after : List UInt8) :
    OccursAt sub (before ++ sub ++ after) before.length := by
  rw [OccursAt, List.append_assoc, List.drop_left]
  exact List.prefix_append sub after

theorem strstr_eq_some (h : strstr sub s = some i) : i ≤ s.length ∧ OccursAt sub s i := by
  induction s generalizing i with
  | nil =>
    rw [strstr] at h
    split at h
    · next hnil =>
      obtain rfl := Option.some.inj h
      exact ⟨le_refl _, hnil ▸ List.nil_prefix⟩
    · cases h
  | cons c cs ih =>
    rw [strstr] at h
    split at h
    · next hprefix =>
      obtain rfl := Option.some.inj h
      exact ⟨Nat.zero_le _, List.isPrefixOf_iff_prefix.1 hprefix⟩
    · obtain ⟨j, hj, rfl⟩ := Option.map_eq_some_iff.1 h
      obtain ⟨hle, hocc⟩ := ih hj
      exact ⟨Nat.succ_le_succ hle, hocc⟩

theorem strstr_isSome (h : OccursAt sub s i) : (strstr sub s).isSome := by
  induction s generalizing i with
  | nil =>
    rw [OccursAt, List.drop_nil, List.prefix_nil] at h
    rw [strstr, if_pos h]
    rfl
  | cons c cs ih =>
    rw [strstr]
    split
    · rfl
    next hnot =>
    rw [Option.isSome_map]
    cases i with
    | zero => exact absurd (List.isPrefixOf_iff_prefix.2 h) hnot
    | succ i => exact ih h

/-- The only occurrence is the first one. -/
theorem strstr_of_unique (h : s = before ++ sub ++ after)
    (hunique : ∀ j ∈ List.range (s.length + 1), OccursAt sub s j → j = before.length) :
    strstr sub s = some before.length := by
  have hocc : OccursAt sub s before.length := h ▸ occursAt_append before sub after
  obtain ⟨i, hi⟩ := Option.isSome_iff_exists.1 (strstr_isSome hocc)
  obtain ⟨hle, hocc'⟩ := strstr_eq_some hi
  rw [hi, hunique i (List.mem_range.2 (Nat.lt_succ_of_le hle)) hocc']

/-- If the new line fits, nothing of it is cut. -/
theorem insertParameter_of_unique (h : s = before ++ sub ++ after)
    (hunique : ∀ j ∈ List.range (s.length + 1), OccursAt sub s j → j = before.length)
    (hfits : s.length + parameterEntry.length < maxLineChar) :
    insertParameter sub s = before ++ sub ++ (parameterEntry ++ after) := by
  have hlen := congrArg List.length h
  rw [List.length_append] at hlen
  have hstart : before.length + sub.length = (before ++ sub).length := List.length_append.symm
  have hdrop : s.drop (before ++ sub).length = after := by rw [h, List.drop_left]
  have htake : s.take (before ++ sub).length = before ++ sub := by rw [h, List.take_left]
  have hentry : (parameterEntry ++ after).length = parameterEntry.length + after.length :=
    List.length_append
  rw [insertParameter, strstr_of_unique h hunique]
  simp only [hstart, hdrop, htake]
  rw [List.take_of_length_le (l := parameterEntry ++ after) (by omega),
    List.take_of_length_le (by omega)]

end Place

/-! ## Tokens -/

variable {after before blanks entries id rest token : List UInt8}

section Tokens

variable {s before after : List UInt8}

/-- A blank is at the end of a token, or the text ends there. -/
def TokenEnd (after : List UInt8) : Prop := after = [] ∨ ∃ cs, after = 32 :: cs

theorem dropWhile_eq_cons_not {p : UInt8 → Bool} {c : UInt8} {cs : List UInt8}
    (h : s.dropWhile p = c :: cs) : p c = false := by
  have := List.head?_dropWhile_not p s
  rw [h] at this
  simpa using this

/-- How `strtok` cuts. -/
theorem strtok_split (h : strtok s = some (token, rest)) :
    ∃ blanks after, s = blanks ++ (token ++ after) ∧ (∀ c ∈ blanks, c = 32) ∧ token ≠ [] ∧ 32 ∉ token ∧
      TokenEnd after ∧ rest = after.tail := by
  obtain ⟨hsplit, hrest⟩ := strtok_eq_some h
  rw [List.append_assoc] at hsplit
  refine ⟨_, _, hsplit, ?_, ?_, ?_, ?_, hrest⟩
  · intro c hc
    simpa using List.mem_takeWhile_imp hc
  · rintro rfl
    unfold strtok at h
    split at h
    · cases h
    · next c cs hdrop =>
      have hc : c ≠ 32 := by simpa using dropWhile_eq_cons_not hdrop
      simp [hc] at h
  · intro hmem
    unfold strtok at h
    split at h
    · cases h
    · have htoken := (Prod.mk.inj (Option.some.inj h)).1
      rw [← htoken] at hmem
      simpa using List.mem_takeWhile_imp hmem
  · cases hend : (s.dropWhile (· = 32)).dropWhile (· ≠ 32) with
    | nil => exact .inl rfl
    | cons c cs =>
      have hc : c = 32 := by simpa using dropWhile_eq_cons_not hend
      exact .inr ⟨cs, by rw [hc]⟩

theorem strtok_blanks (h : ∀ c ∈ blanks, c = 32) (s : List UInt8) :
    strtok (blanks ++ s) = strtok s := by
  unfold strtok
  rw [List.dropWhile_append_of_pos (fun c hc => decide_eq_true (h c hc))]

theorem length_lt_of_strtok (h : strtok s = some (token, rest)) :
    rest.length < s.length := by
  obtain ⟨blanks, after, rfl, -, hne, -, -, rfl⟩ := strtok_split h
  have hpos := List.length_pos_of_ne_nil hne
  rw [List.length_append, List.length_append, List.length_tail]
  omega

theorem tokens_eq (s : List UInt8) :
    tokens s = match strtok s with
      | none => []
      | some (token, rest) => token :: tokens rest := by
  rw [tokens, Scan.all_eq (fun _ _ _ h => length_lt_of_strtok h)]
  cases strtok s with
  | none => rfl
  | some r => rfl

theorem tokens_word {word : List UInt8} (hne : word ≠ []) (hword : 32 ∉ word) (hend : TokenEnd after) :
    tokens (word ++ after) = word :: tokens after.tail := by
  rw [tokens_eq, strtok_word hne hword hend]

theorem tokens_append (hstart : TokenStart before) (s : List UInt8) :
    tokens (before ++ s) = tokens before ++ tokens s := by
  induction hn : before.length using Nat.strongRecOn generalizing before with
  | ind n ih =>
    by_cases hne : before = []
    · subst hne
      rfl
    obtain ⟨word, cs, rfl, hword⟩ := hstart.split hne
    have hrest := ih cs.length (by rw [← hn]; simp; omega)
      ((tokenStart_append_blank word cs).1 hstart) rfl
    rw [List.append_assoc, List.cons_append]
    by_cases hblank : word = []
    · subst hblank
      rw [List.nil_append, List.nil_append, tokens_eq, tokens_eq (32 :: cs), strtok_blank,
        strtok_blank, ← tokens_eq, ← tokens_eq, hrest]
    · rw [tokens_word hblank hword (.inr ⟨_, rfl⟩), tokens_word hblank hword (.inr ⟨_, rfl⟩),
        List.tail_cons, List.tail_cons, hrest, List.cons_append]

end Tokens

/-! ## The table of a line -/

section Table

variable {s : List UInt8}

theorem tokenStart_blanks (h : ∀ c ∈ blanks, c = 32) : TokenStart blanks := by
  cases hlast : blanks.getLast? with
  | none => exact .inl (List.getLast?_eq_none_iff.1 hlast)
  | some c =>
    obtain rfl := h c (List.mem_of_getLast? hlast)
    exact .inr hlast

/-- A command line with a table. -/
def lineWith (before id entries after : List UInt8) : List UInt8 :=
  before ++ (mtdpartsKey ++ (id ++ 58 :: entries) ++ after)

theorem lineWith_eq_findText (before id entries after : List UInt8) :
    lineWith before id entries after = before ++ findText id ++ (entries ++ after) := by
  have hcolon : ascii ":" = [58] := rfl
  simp [lineWith, findText, hcolon]

/-- If the text behind the key is changed, the loop finds the new text at the same place. -/
theorem findMtdparts_replace {k : Nat} {text : List UInt8} (h : findMtdparts k s = some text) :
    ∃ before after, s = before ++ (mtdpartsKey ++ text ++ after) ∧ TokenStart before ∧ 32 ∉ text ∧
      TokenEnd after ∧
      ∀ text' k', 32 ∉ text' → before.length < k' →
        findMtdparts k' (before ++ (mtdpartsKey ++ text' ++ after)) = some text' := by
  induction k generalizing s with
  | zero => cases h
  | succ k ih =>
    rw [findMtdparts] at h
    cases htok : strtok s with
    | none =>
      rw [htok] at h
      cases h
    | some r =>
      obtain ⟨token, rest⟩ := r
      rw [htok] at h
      obtain ⟨blanks, after, rfl, hblanks, hne, htoken, hend, rfl⟩ := strtok_split htok
      dsimp only at h
      split at h
      · -- the token has the key
        next hprefix =>
        obtain ⟨t, rfl⟩ := List.isPrefixOf_iff_prefix.1 hprefix
        rw [List.drop_left, Option.some.injEq] at h
        subst h
        refine ⟨blanks, after, rfl, tokenStart_blanks hblanks,
          fun hmem => htoken (List.mem_append_right _ hmem), hend, ?_⟩
        intro text' k' htext' hk'
        obtain ⟨k', rfl⟩ : ∃ m, k' = m + 1 := ⟨k' - 1, by omega⟩
        have hword : 32 ∉ mtdpartsKey ++ text' := by
          rw [List.mem_append, not_or]
          exact ⟨by decide, htext'⟩
        rw [findMtdparts, strtok_blanks hblanks,
          strtok_word (by simp [mtdpartsKey, ascii]) hword hend]
        simp
      · -- it has not, and there is one behind it
        next hprefix =>
        rcases hend with rfl | ⟨cs, rfl⟩
        · rw [List.tail_nil] at h
          cases k with
          | zero => cases h
          | succ k => cases h
        obtain ⟨before, after, rfl, hstart, htext, hafter, hreplace⟩ := ih h
        refine ⟨blanks ++ token ++ 32 :: before, after, by simp,
          (tokenStart_append_blank _ _).2 hstart, htext, hafter, ?_⟩
        intro text' k' htext' hk'
        obtain ⟨k', rfl⟩ : ∃ m, k' = m + 1 := ⟨k' - 1, by omega⟩
        have hlist : blanks ++ token ++ 32 :: before ++ (mtdpartsKey ++ text' ++ after)
            = blanks ++ (token ++ 32 :: (before ++ (mtdpartsKey ++ text' ++ after))) := by simp
        rw [hlist, findMtdparts, strtok_blanks hblanks, strtok_word hne htoken (.inr ⟨_, rfl⟩)]
        simp only [if_neg hprefix, List.tail_cons]
        refine hreplace text' k' htext' ?_
        rw [List.length_append, List.length_cons] at hk'
        omega

theorem split_colon (hid : 58 ∉ id) (entries : List UInt8) :
    (id ++ 58 :: entries).takeWhile (· ≠ 58) = id ∧
      (id ++ 58 :: entries).dropWhile (· ≠ 58) = 58 :: entries := by
  have hall : ∀ c ∈ id, decide (c ≠ 58) = true := fun c hc => decide_eq_true (fun h => hid (h ▸ hc))
  rw [List.takeWhile_append_of_pos hall, List.dropWhile_append_of_pos hall]
  simp

/-- The entries of the table can be replaced. -/
theorem idAndEntries_replace (h : idAndEntries s = some (id, entries)) :
    ∃ before after, s = lineWith before id entries after ∧ TokenStart before ∧ 32 ∉ id ∧ 32 ∉ entries ∧
      TokenEnd after ∧
      ∀ entries', 32 ∉ entries' →
        idAndEntries (lineWith before id entries' after) = some (id, entries') := by
  obtain ⟨text, hfind, htext⟩ := Option.bind_eq_some_iff.1 h
  cases hdrop : text.dropWhile (· ≠ 58) with
  | nil =>
    rw [hdrop] at htext
    cases htext
  | cons c rest =>
    rw [hdrop] at htext
    obtain ⟨rfl, rfl⟩ := Prod.mk.inj (Option.some.inj htext)
    obtain rfl : c = 58 := by simpa using dropWhile_eq_cons_not hdrop
    have hsplit : text = text.takeWhile (· ≠ 58) ++ 58 :: rest := by
      rw [← hdrop, List.takeWhile_append_dropWhile]
    have hid : 58 ∉ text.takeWhile (· ≠ 58) := fun hmem => by
      simpa using List.mem_takeWhile_imp hmem
    obtain ⟨before, after, hs, hstart, hblank, hend, hreplace⟩ := findMtdparts_replace hfind
    rw [hsplit, List.mem_append, List.mem_cons, not_or, not_or] at hblank
    refine ⟨before, after, ?_, hstart, hblank.1, hblank.2.2, hend, fun entries' hentries => ?_⟩
    · rw [lineWith, ← hsplit]
      exact hs
    have hnew : 32 ∉ text.takeWhile (· ≠ 58) ++ 58 :: entries' := by
      rw [List.mem_append, List.mem_cons, not_or, not_or]
      exact ⟨hblank.1, by decide, hentries⟩
    obtain ⟨htake, hdrop'⟩ := split_colon hid entries'
    rw [idAndEntries, mtdpartsText, lineWith, hreplace _ _ hnew (by rw [List.length_append]; omega),
      Option.bind_some, hdrop']
    rw [htake]

theorem tokens_lineWith (hstart : TokenStart before)
    (hid : 32 ∉ id) (hentries : 32 ∉ entries) (hend : TokenEnd after) :
    tokens (lineWith before id entries after)
      = tokens before ++ (findText id ++ entries) :: tokens after.tail := by
  have hword : 32 ∉ findText id ++ entries := by
    rw [findText, List.mem_append, List.mem_append, List.mem_append, not_or, not_or, not_or]
    exact ⟨⟨⟨by decide, hid⟩, by decide⟩, hentries⟩
  have hne : findText id ++ entries ≠ [] := by simp [findText, mtdpartsKey, ascii]
  rw [lineWith_eq_findText, List.append_assoc, ← List.append_assoc (findText id)]
  rw [tokens_append hstart, tokens_word hne hword hend]

/-- The entry is put in front of the table. -/
theorem insertParameter_lineWith
    (honce : OnceAtToken (findText id) (lineWith before id entries after))
    (hfits : (lineWith before id entries after).length + parameterEntry.length < maxLineChar) :
    insertParameter (findText id) (lineWith before id entries after)
      = lineWith before id (parameterEntry ++ entries) after := by
  have hocc := lineWith_eq_findText before id entries after
  obtain ⟨i, -, -, -, honly⟩ := honce
  -- the one occurrence is the one in front of the table
  have hplace : before.length = i := by
    refine honly _ ?_ (hocc.symm ▸ occursAt_append before (findText id) (entries ++ after))
    rw [lineWith, List.mem_range, List.length_append]
    omega
  rw [insertParameter_of_unique hocc (fun j hj h => (honly j hj h).trans hplace.symm) hfits,
    lineWith_eq_findText, List.append_assoc parameterEntry]

end Table

/-! ## Parsing -/

section Parse

variable {info info' : BootInfo} {id entries : List UInt8}

@[simp]
theorem getRdInfo_cmdLine (info : BootInfo) : (getRdInfo info).cmdLine = info.cmdLine := by
  unfold getRdInfo
  split <;> rfl

@[simp]
theorem getRdInfo_cmdMtd (info : BootInfo) : (getRdInfo info).cmdMtd = info.cmdMtd := by
  unfold getRdInfo
  split <;> rfl

@[simp]
theorem getRdInfo_indexRecovery (info : BootInfo) :
    (getRdInfo info).indexRecovery = info.indexRecovery := by
  unfold getRdInfo
  split <;> rfl

/-- A line with a table is parsed to that table. -/
theorem parseCmdline_of_table (hline : info.cmdLine.length < maxLineChar)
    (h : idAndEntries info.cmdLine = some (id, entries)) (hid : id.length ≤ 64)
    (hparts : getPart (maxPartitions - 1) entries [] = some parts) :
    ∃ ret info', parseCmdline info = some (ret, info') ∧ info'.cmdMtd.parts = parts := by
  have hmtd : mtdpartParse info.cmdLine ⟨info.cmdMtd.mtdId.set8 0 0, []⟩
      = some (1, ⟨(info.cmdMtd.mtdId.set8 0 0).store 0 id, parts⟩) := by
    rw [mtdpartParse_eq, if_neg (Nat.not_le.2 hline), h]
    dsimp only
    rw [if_neg (Nat.not_lt.2 hid), List.length_nil, Nat.sub_zero, hparts, Option.map_some]
  rw [parseCmdline, hmtd, Option.map_some, if_neg (show ¬ (1 : Int) = 0 by decide)]
  exact ⟨_, _, rfl, by simp⟩

/-- If a line gives partitions, they are its table. -/
theorem parseCmdline_eq_some {ret : Int} (h : parseCmdline info = some (ret, info'))
    (hne : info'.cmdMtd.parts ≠ []) :
    info'.cmdLine = info.cmdLine ∧
      info'.indexRecovery = findMtdPart info'.cmdMtd (ascii "recovery") ∧
      ∃ id entries, idAndEntries info.cmdLine = some (id, entries) ∧ id.length ≤ 64 ∧
        info'.cmdMtd.mtdId = (info.cmdMtd.mtdId.set8 0 0).store 0 id ∧
        getPart (maxPartitions - 1) entries [] = some info'.cmdMtd.parts := by
  obtain ⟨r, hmtd, hinfo⟩ := Option.map_eq_some_iff.1 h
  rw [mtdpartParse_eq] at hmtd
  split at hmtd
  · cases hmtd
  cases htable : idAndEntries info.cmdLine with
  | none =>
    rw [htable] at hmtd
    obtain rfl := Option.some.inj hmtd
    refine absurd ?_ hne
    split at hinfo
    · rw [← (Prod.mk.inj hinfo).2]
    · rw [← (Prod.mk.inj hinfo).2, getRdInfo_cmdMtd]
  | some p =>
    obtain ⟨id, entries⟩ := p
    rw [htable] at hmtd
    dsimp only at hmtd
    split at hmtd
    · cases hmtd
    next hid =>
    obtain ⟨parts, hparts, rfl⟩ := Option.map_eq_some_iff.1 hmtd
    rw [if_neg (show ¬ (1 : Int) = 0 by decide)] at hinfo
    obtain rfl := (Prod.mk.inj hinfo).2
    refine ⟨by simp, by simp, id, entries, rfl, Nat.not_lt.1 hid, by simp, ?_⟩
    rw [getRdInfo_cmdMtd]
    exact hparts

theorem findMtdPart_nonneg {mtd : CmdlineMtdPartition} {name : List UInt8}
    (h : ∃ part ∈ mtd.parts, part.name = name) : 0 ≤ findMtdPart mtd name := by
  unfold findMtdPart
  cases hidx : mtd.parts.findIdx? (fun part => part.name = name) with
  | some i => exact Int.natCast_nonneg i
  | none =>
    obtain ⟨part, hmem, hname⟩ := h
    have := List.findIdx?_eq_none_iff.1 hidx part hmem
    simp [hname] at this

end Parse

/-! ## The new table -/

section NewTable

variable {info info' : BootInfo} {id entries cmdLine : List UInt8}

/-- The partition of the parameter file. -/
def parameterPart : DiskPartition := ⟨0, 0x2000, 512, ascii "parameter", ascii "raw"⟩

theorem parameterPart_prints :
    PartOk parameterPart ∧ Prints parameterPart (ascii "0x00002000@0x00000000(parameter)") := by
  refine ⟨⟨by decide, by decide, rfl, rfl, by decide, by decide, by decide +kernel⟩,
    ascii "0x00002000", ascii "0x00000000", by decide, .inl ⟨ascii "00002000", ?_⟩, ascii "00000000", ?_⟩
  · decide +kernel
  · decide +kernel

/-- The new entry comes first, and takes one place. -/
theorem getPart_parameterEntry (k : Nat) (entries : List UInt8) :
    getPart (k + 1) (parameterEntry ++ entries) [] = getPart k entries [parameterPart] := by
  have hentry : parameterEntry = ascii "0x00002000@0x00000000(parameter)" ++ [44] := by decide
  rw [hentry, List.append_assoc, List.singleton_append,
    getPart_print parameterPart_prints.2 parameterPart_prints.1 (.inr ⟨entries, rfl⟩)]
  simp only [List.head?_cons, if_true, List.tail_cons, List.nil_append]

/-- A table of entries with names, and with room for one more, is behind the new entry. -/
theorem getPart_with_parameter
    (h : getPart (maxPartitions - 1) entries [] = some parts) (hroom : parts.length < maxPartitions)
    (hnamed : none ∉ givenNames (maxPartitions - 1) entries) :
    getPart (maxPartitions - 1) (parameterEntry ++ entries) [] = some (parameterPart :: parts) := by
  have hmax : maxPartitions = 32 := rfl
  obtain ⟨ps, hps, hget⟩ := getPart_elsewhere hnamed h (by simp only [List.length_nil]; omega)
  rw [List.nil_append] at hps
  rw [hps]
  exact (getPart_parameterEntry 30 entries).trans (hget [parameterPart])

/-- In a zeroed `mtd_id` the id is terminated if it does not fill the array. -/
theorem cstr_mtdId (hid : 0 ∉ id) (hle : id.length ≤ 64)
    (hlt : (((Mem.zero.set8 0 0).store 0 id).cstr 64 0).length < 64) :
    ((Mem.zero.set8 0 0).store 0 id).cstr 64 0 = id := by
  have hchars : ∀ (i : Nat) (hi : i < id.length), ((Mem.zero.set8 0 0).store 0 id) (0 + i) = id[i] := by
    intro i hi
    simp [Mem.store, hi]
  have hshort : id.length < 64 := by
    have := Mem.le_length_cstr (m := (Mem.zero.set8 0 0).store 0 id) (a := 0) (n := id.length)
      (fun i hi h0 => hid ((hchars i hi ▸ h0) ▸ List.getElem_mem hi)) hle
    omega
  refine Mem.cstr_eq _ _ _ _ hid hshort hchars ?_
  simp [Mem.store, Mem.set8, Mem.zero]

/-- **After the change for recovery, the parsed table is the parameter file and then the old table, and
    no other token is changed**, for every command line that has the table's key once, at the start of a
    token, and a table of less than 32 entries that all have names. -/
theorem changeCmdForRecovery_parse {ret : Int} (hline : 0 ∉ cmdLine)
    (hparse : parseCmdline (.zeroed cmdLine) = some (ret, info))
    (hid : (info.cmdMtd.mtdId.cstr 64 0).length < 64) (hroom : info.cmdMtd.parts.length < maxPartitions)
    (hrecovery : ∃ part ∈ info.cmdMtd.parts, part.name = ascii "recovery")
    (honce : OnceAtToken (szFind info) cmdLine)
    (hnamed : ∀ r ∈ idAndEntries cmdLine, none ∉ givenNames (maxPartitions - 1) r.2)
    (hfits : cmdLine.length + parameterEntry.length < maxLineChar) :
    ∃ new, changeCmdForRecovery info [] = some (some recoverFlag, new) ∧
      (∀ start : BootInfo, start.cmdLine = new.cmdLine → ∃ ret' info',
        parseCmdline start = some (ret', info') ∧
          info'.cmdMtd.parts = ⟨0, 0x2000, 512, ascii "parameter", ascii "raw"⟩ :: info.cmdMtd.parts) ∧
      ∃ pre entries post, tokens cmdLine = pre ++ (szFind info ++ entries) :: post ∧
        tokens new.cmdLine = pre ++ (szFind info ++ (parameterEntry ++ entries)) :: post := by
  have hne : info.cmdMtd.parts ≠ [] := by
    obtain ⟨part, hmem, -⟩ := hrecovery
    exact List.ne_nil_of_mem hmem
  obtain ⟨hcmd, hindex, id, entries, htable, hidle, hmtdid, hparts⟩ := parseCmdline_eq_some hparse hne
  change idAndEntries cmdLine = _ at htable
  obtain ⟨before, after, hs, hstart, hidblank, hblank, hend, hreplace⟩ := idAndEntries_replace htable
  have hnewblank : 32 ∉ parameterEntry ++ entries := by
    rw [List.mem_append, not_or]
    exact ⟨by decide, hblank⟩
  -- the id in the memory is the one of the text
  have hidtext : info.cmdMtd.mtdId.cstr 64 0 = id := by
    have hidzero : 0 ∉ id := fun hmem => hline (by rw [hs, lineWith]; simp [hmem])
    rw [hmtdid] at hid ⊢
    exact cstr_mtdId hidzero hidle hid
  have hfind : szFind info = findText id := by rw [szFind, hidtext]
  have hnew : insertParameter (findText id) cmdLine
      = lineWith before id (parameterEntry ++ entries) after := by
    rw [hfind] at honce
    rw [hs] at honce hfits ⊢
    exact insertParameter_lineWith honce hfits
  have hlen : (lineWith before id (parameterEntry ++ entries) after).length < maxLineChar := by
    rw [hs] at hfits
    simp only [lineWith, List.length_append, List.length_cons] at hfits ⊢
    omega
  refine ⟨{ info with cmdLine := lineWith before id (parameterEntry ++ entries) after }, ?_, ?_,
    tokens before, entries, tokens after.tail, ?_, ?_⟩
  · have hcmd' : info.cmdLine = cmdLine := hcmd
    have hindex' : 0 ≤ info.indexRecovery := by
      rw [hindex]
      exact findMtdPart_nonneg hrecovery
    rw [changeCmdForRecovery, if_pos hindex']
    simp only [hcmd', hfind, hnew, List.append_nil]
    rw [if_neg (by rw [not_or]; exact ⟨hid.ne, Nat.not_le.2 hlen⟩)]
  · intro start hcmdLine
    refine parseCmdline_of_table (by rw [hcmdLine]; exact hlen) ?_ hidle
      (getPart_with_parameter hparts hroom (hnamed _ htable))
    rw [hcmdLine]
    exact hreplace _ hnewblank
  · rw [hfind, hs]
    exact tokens_lineWith hstart hidblank hblank hend
  · rw [hfind]
    exact tokens_lineWith hstart hidblank hnewblank hend

/-- What is parsed from a command line. -/
def parsedInfo (cmdLine : List UInt8) : BootInfo :=
  ((parseCmdline (.zeroed cmdLine)).map (fun r => r.2)).getD (.zeroed cmdLine)

theorem parseCmdline_parsedInfo (h : (parseCmdline (.zeroed cmdLine)).isSome) :
    ∃ ret, parseCmdline (.zeroed cmdLine) = some (ret, parsedInfo cmdLine) := by
  obtain ⟨r, hr⟩ := Option.isSome_iff_exists.1 h
  exact ⟨r.1, by rw [parsedInfo, hr]; rfl⟩

/-- A line with a table of two entries. -/
def namedLine : List UInt8 := ascii "quiet mtdparts=a:1@2(boot),3@4(recovery) rw"

theorem changeCmdForRecovery_parse_named :
    ∃ new, changeCmdForRecovery (parsedInfo namedLine) [] = some (some recoverFlag, new) ∧
      ∃ ret info, parseCmdline (.zeroed new.cmdLine) = some (ret, info) ∧
        info.cmdMtd.parts = ⟨0, 0x2000, 512, ascii "parameter", ascii "raw"⟩
          :: (parsedInfo namedLine).cmdMtd.parts := by
  obtain ⟨ret, hparse⟩ := @parseCmdline_parsedInfo namedLine (by decide +kernel)
  obtain ⟨new, hchange, hnew, -⟩ := changeCmdForRecovery_parse (by decide) hparse (by decide +kernel)
    (by decide +kernel) (by decide +kernel) (by decide +kernel) (by decide +kernel) (by decide)
  exact ⟨new, hchange, hnew (.zeroed new.cmdLine) rfl⟩

/-- An entry without a name is `Partition_000` before and `Partition_001` after the change. -/
theorem changeCmdForRecovery_unnamed :
    OnceAtToken (szFind (parsedInfo (ascii "mtdparts=a:1@2,3@4(recovery)")))
        (ascii "mtdparts=a:1@2,3@4(recovery)") ∧
      (parsedInfo (ascii "mtdparts=a:1@2,3@4(recovery)")).cmdMtd.mtdId.cstr 64 0 = ascii "a" ∧
      (parsedInfo (ascii "mtdparts=a:1@2,3@4(recovery)")).cmdMtd.parts
        = [⟨2, 1, 512, ascii "Partition_000", ascii "raw"⟩, ⟨4, 3, 512, ascii "recovery", ascii "raw"⟩] ∧
      (changeCmdForRecovery (parsedInfo (ascii "mtdparts=a:1@2,3@4(recovery)")) []).map
          (fun r => (parsedInfo r.2.cmdLine).cmdMtd.parts)
        = some [⟨0, 0x2000, 512, ascii "parameter", ascii "raw"⟩,
            ⟨2, 1, 512, ascii "Partition_001", ascii "raw"⟩,
            ⟨4, 3, 512, ascii "recovery", ascii "raw"⟩] := by
  refine ⟨?_, ?_, ?_, ?_⟩
  · decide +kernel
  · decide +kernel
  · decide +kernel
  · decide +kernel

end NewTable

end Param
