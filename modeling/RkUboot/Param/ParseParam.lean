import Mathlib.Data.List.TakeWhile
import RkUboot.Lib.Bytes
import RkUboot.Lib.Scan
import RkUboot.Param.Mtdparts
import RkUboot.Param.Store

set_option autoImplicit false

/-! # What the parser of the parameter file writes (`rkloader/parameter.c`)

`ParseParam` cuts the text into lines and copies parts of them into arrays of fixed sizes. The lines and
the copies of a line always fit, since the whole text is smaller than one line may be. The id of the
flash and the names of the partitions are copied by `strncpy` with the length of the source, whatever
the size of the destination is.

The model is the list of the writes to the arrays, in the order in which the source does them. The
initial values of the local arrays and the members that are numbers are not in it. -/

open Fastboot Platform

namespace Param

/-! ## Writes -/

/-- The arrays that the parser writes to. -/
inductive Buffer where
  /-- `line` of `ParseParam`. -/
  | line
  | cmdLine
  | fwVersion
  | fdtName
  /-- `cmdline` of `mtdpart_parse`. -/
  | mtdCmdline
  /-- `cmdline` of `get_rdInfo`. -/
  | rdCmdline
  | mtdId
  /-- `name` of `get_part`. -/
  | name
  /-- `parts`, counted in entries. -/
  | parts
  | partName
  | partType
  deriving DecidableEq, Repr

def Buffer.size : Buffer → Nat
  | line | cmdLine | fwVersion | fdtName | mtdCmdline | rdCmdline => maxLineChar
  | mtdId => 64
  | name | partName | partType => 32
  | parts => maxPartitions

/-- A write of `count` elements. -/
structure Write where
  buffer : Buffer
  start : Nat
  count : Nat
  deriving DecidableEq, Repr

def Write.Inside (w : Write) : Prop := w.start + w.count ≤ w.buffer.size
  deriving Decidable

/-- The write of `strcpy` and `sprintf`. -/
def strcpyWrite (b : Buffer) (s : List UInt8) : Write := ⟨b, 0, s.length + 1⟩

/-- The write of `snprintf` with the size of the array. -/
def snprintfWrite (b : Buffer) (s : List UInt8) : Write := ⟨b, 0, min (s.length + 1) b.size⟩

/-- The write of `strncpy` if the source has `s.length` characters at least. -/
def strncpyWrite (b : Buffer) (s : List UInt8) : Write := ⟨b, 0, s.length⟩

/-! ## The partition table -/

/-- The name in parentheses of an entry, if it has one, and what is behind; there is no result if the
    name is not closed. -/
def givenName (parts : List UInt8) : Option (Option (List UInt8) × List UInt8) :=
  if parts.head? = some 40 then
    match parts.tail.dropWhile (· ≠ 41) with
    | [] => none
    | _ :: rest => some (some (parts.tail.takeWhile (· ≠ 41)), rest)
  else some (none, parts)

/-- The write to `name`. -/
def nameWrite (index : Nat) : Option (List UInt8) → Write
  | some name => strncpyWrite .name name
  | none => strcpyWrite .name (defaultName index)

/-- The writes for one entry. -/
def entryWrites (index : Nat) (name : Option (List UInt8)) : List Write :=
  [nameWrite index name, ⟨.parts, index, 1⟩,
    snprintfWrite .partName (name.getD (defaultName index)), snprintfWrite .partType (ascii "raw")]

/-- The writes of `get_part`, with room for `k` entries behind this one. -/
def getPartWrites : Nat → Nat → List UInt8 → List Write
  | k, index, parts =>
    match givenName (getOffset (getSize parts).2).2 with
    | none => []
    | some (name, rest) =>
      entryWrites index name ++
      match k with
      | 0 => []
      | k + 1 =>
        if (skipOptions rest).head? = some 44 then getPartWrites k (index + 1) (skipOptions rest).tail
        else []

/-- The writes of a loop of `strtok` in the array `b`, from `pos` on, until a token has the key: the
    blank behind each token is overwritten. -/
def strtokWrites (b : Buffer) (key : List UInt8) : Nat → Nat → List UInt8 → List Write
  | 0, _, _ => []
  | k + 1, pos, s =>
    match strtok s with
    | none => []
    | some (token, rest) =>
      let stop := pos + (s.takeWhile (· = 32)).length + token.length
      (if 32 ∈ s.dropWhile (· = 32) then [⟨b, stop, 1⟩] else []) ++
        if key.isPrefixOf token then [] else strtokWrites b key k (stop + 1) rest

/-- What follows the key in the first token that has it. -/
def mtdpartsText (string : List UInt8) : Option (List UInt8) := findMtdparts (string.length + 1) string

/-- The id of the flash and the text of its entries in a command line; there are none without a token
    that has the key, or without a colon in the first one. -/
def idAndEntries (cmdLine : List UInt8) : Option (List UInt8 × List UInt8) :=
  (mtdpartsText cmdLine).bind (fun s =>
    match s.dropWhile (· ≠ 58) with
    | [] => none
    | _ :: rest => some (s.takeWhile (· ≠ 58), rest))

/-- The writes of `mtdpart_parse`. -/
def mtdpartParseWrites (string : List UInt8) : List Write :=
  strcpyWrite .mtdCmdline string ::
    strtokWrites .mtdCmdline mtdpartsKey (string.length + 1) 0 string ++
  match idAndEntries string with
  | none => []
  | some (id, entries) => strncpyWrite .mtdId id :: getPartWrites (maxPartitions - 1) 0 entries

/-- The writes of `get_rdInfo`. -/
def getRdInfoWrites (cmdLine : List UInt8) : List Write :=
  strcpyWrite .rdCmdline cmdLine ::
    strtokWrites .rdCmdline (ascii "initrd=") (cmdLine.length + 1) 0 cmdLine

/-- The writes of `parse_cmdline`; there are no more if `mtdpart_parse` finds no colon. -/
def parseCmdlineWrites (cmdLine : List UInt8) : List Write :=
  ⟨.mtdId, 0, 1⟩ :: mtdpartParseWrites cmdLine ++
    if (mtdpartsText cmdLine).any (fun s => 58 ∉ s) then [] else getRdInfoWrites cmdLine

/-! ## Lines -/

/-- The keys of lines with a number. -/
def numberKeys : List (List UInt8) :=
  [ascii "MAGIC:", ascii "ATAG:", ascii "MACHINE:", ascii "CHECK_MASK:", ascii "KERNEL_IMG:",
    ascii "BOOT_IMG:", ascii "RECOVERY_IMG:", ascii "MISC_IMG:"]

/-- What is behind a key and blanks. -/
def valueOf (key line : List UInt8) : List UInt8 := (line.drop key.length).dropWhile (· = 32)

/-- The writes of `ParseLine`. -/
def parseLineWrites (line : List UInt8) : List Write :=
  if numberKeys.any (fun key => key.isPrefixOf line) then []
  else if (ascii "CMDLINE:").isPrefixOf line then
    strcpyWrite .cmdLine (valueOf (ascii "CMDLINE:") line) ::
      parseCmdlineWrites (valueOf (ascii "CMDLINE:") line)
  else if (ascii "FIRMWARE_VER:").isPrefixOf line then
    [strcpyWrite .fwVersion (valueOf (ascii "FIRMWARE_VER:") line)]
  else if (ascii "FDT_NAME:").isPrefixOf line then
    [strcpyWrite .fdtName (valueOf (ascii "FDT_NAME:") line)]
  else []

/-- Model of `getline` on the characters that remain: the line, and what is behind it. -/
def getline : List UInt8 → List UInt8 × List UInt8
  | [] => ([], [])
  | c :: cs =>
    if c = 10 ∨ c = 0 then ([], cs)
    else if c ≠ 13 then (c :: (getline cs).1, (getline cs).2)
    else getline cs

/-- One round of the loop of `ParseParam`, as long as something remains. -/
def nextLine (param : List UInt8) : Option (List UInt8 × List UInt8) :=
  if param = [] then none else some (getline param)

/-- The lines that `ParseParam` goes through. -/
def paramLines (param : List UInt8) : List (List UInt8) := Scan.all nextLine List.length param

/-- The writes of one round of `ParseParam`; empty lines and comments are not parsed. -/
def lineWrites (line : List UInt8) : List Write :=
  strcpyWrite .line line ::
    if line.head? = none ∨ line.head? = some 35 then [] else parseLineWrites line

/-- The writes of `ParseParam`. -/
def parseParamWrites (param : List UInt8) : List Write := (paramLines param).flatMap lineWrites

/-- `parameter` of a `LoaderParam`, `length` characters. -/
def parameterText (param : Mem) : List UInt8 := param.bytes 8 (param.u32 4)

/-! ## What has to fit -/

/-- The given names of the entries that `get_part` comes to. -/
def givenNames : Nat → List UInt8 → List (Option (List UInt8))
  | k, parts =>
    match givenName (getOffset (getSize parts).2).2 with
    | none => []
    | some (name, rest) =>
      name ::
      match k with
      | 0 => []
      | k + 1 => if (skipOptions rest).head? = some 44 then givenNames k (skipOptions rest).tail else []

/-- All given names fit `name`. -/
def NamesFit (names : List (Option (List UInt8))) : Prop :=
  ∀ name ∈ names, ∀ text ∈ name, text.length ≤ 32
  deriving Decidable

/-- The id has 64 characters at most, and no name has more than 32. -/
def TableFits (cmdLine : List UInt8) : Prop :=
  ∀ r ∈ idAndEntries cmdLine, r.1.length ≤ 64 ∧ NamesFit (givenNames (maxPartitions - 1) r.2)
  deriving Decidable

/-- The command line of a line that has one. -/
def lineCmdline (line : List UInt8) : Option (List UInt8) :=
  if (ascii "CMDLINE:").isPrefixOf line then some (valueOf (ascii "CMDLINE:") line) else none

/-! ## Writes that fit -/

section Fits

variable {b : Buffer} {s rest : List UInt8}

theorem strcpyWrite_inside_iff : (strcpyWrite b s).Inside ↔ s.length < b.size := by
  simp only [Write.Inside, strcpyWrite]
  omega

theorem snprintfWrite_inside (b : Buffer) (s : List UInt8) : (snprintfWrite b s).Inside := by
  simp only [Write.Inside, snprintfWrite]
  omega

theorem strncpyWrite_inside_iff : (strncpyWrite b s).Inside ↔ s.length ≤ b.size := by
  simp only [Write.Inside, strncpyWrite]
  omega

/-- The name for an entry without one always fits. -/
theorem defaultName_inside :
    ∀ index < maxPartitions, (strcpyWrite .name (defaultName index)).Inside := by
  decide +kernel

theorem nameWrite_inside_iff {index : Nat} (hindex : index < maxPartitions)
    (name : Option (List UInt8)) :
    (nameWrite index name).Inside ↔ ∀ text ∈ name, text.length ≤ 32 := by
  cases name with
  | none =>
    exact ⟨fun _ _ h => absurd h (Option.not_mem_none _), fun _ => defaultName_inside index hindex⟩
  | some text =>
    rw [nameWrite, strncpyWrite_inside_iff]
    exact ⟨fun h _ heq => Option.some.inj heq ▸ h, fun h => h text rfl⟩

theorem entryWrites_inside_iff {index : Nat} (hindex : index < maxPartitions)
    (name : Option (List UInt8)) :
    (∀ w ∈ entryWrites index name, w.Inside) ↔ ∀ text ∈ name, text.length ≤ 32 := by
  have hentry : (⟨.parts, index, 1⟩ : Write).Inside := hindex
  rw [← nameWrite_inside_iff hindex, entryWrites]
  simp only [List.forall_mem_cons, hentry, snprintfWrite_inside, List.not_mem_nil, false_imp_iff,
    implies_true, and_true]

/-- The writes of `get_part` are inside if the names are not too long; the entries are, since there are
    no more than the table has. -/
theorem getPartWrites_inside_iff (k index : Nat) (parts : List UInt8)
    (hroom : index + k < maxPartitions) :
    (∀ w ∈ getPartWrites k index parts, w.Inside) ↔ NamesFit (givenNames k parts) := by
  have hindex : index < maxPartitions := Nat.lt_of_le_of_lt (Nat.le_add_right _ _) hroom
  induction k generalizing index parts with
  | zero =>
    rw [getPartWrites, givenNames]
    cases givenName (getOffset (getSize parts).2).2 with
    | none => simp [NamesFit]
    | some r =>
      dsimp only
      rw [List.append_nil, entryWrites_inside_iff hindex, NamesFit, List.forall_mem_singleton]
  | succ k ih =>
    rw [getPartWrites, givenNames]
    cases givenName (getOffset (getSize parts).2).2 with
    | none => simp [NamesFit]
    | some r =>
      dsimp only
      rw [List.forall_mem_append, entryWrites_inside_iff hindex, NamesFit, List.forall_mem_cons]
      refine and_congr_right fun _ => ?_
      split
      · exact ih (index + 1) _ (by omega) (by omega)
      · simp

/-! ## Tokens -/

theorem strtok_eq_some {token : List UInt8} (h : strtok s = some (token, rest)) :
    s = s.takeWhile (· = 32) ++ token ++ (s.dropWhile (· = 32)).dropWhile (· ≠ 32)
      ∧ rest = ((s.dropWhile (· = 32)).dropWhile (· ≠ 32)).tail := by
  have hs : s = s.takeWhile (· = 32) ++ s.dropWhile (· = 32) := (List.takeWhile_append_dropWhile).symm
  unfold strtok at h
  split at h
  · cases h
  next c cs hdrop =>
  rw [← hdrop] at h
  obtain ⟨rfl, rfl⟩ := h
  refine ⟨?_, rfl⟩
  rw [List.append_assoc, List.takeWhile_append_dropWhile]
  exact hs

theorem strtokWrites_nil (b : Buffer) (key : List UInt8) (k pos : Nat) :
    strtokWrites b key k pos [] = [] := by
  cases k with
  | zero => rfl
  | succ k => rfl

/-- `strtok` writes inside the text. -/
theorem strtokWrites_inside (key : List UInt8) (k pos : Nat) (s : List UInt8)
    (hfits : pos + s.length ≤ b.size) : ∀ w ∈ strtokWrites b key k pos s, w.Inside := by
  induction k generalizing pos s with
  | zero => simp [strtokWrites]
  | succ k ih =>
    rw [strtokWrites]
    cases htok : strtok s with
    | none => simp
    | some r =>
      obtain ⟨token, rest⟩ := r
      obtain ⟨hsplit, rfl⟩ := strtok_eq_some htok
      have hlen := congrArg List.length hsplit
      rw [List.length_append, List.length_append] at hlen
      simp only [List.forall_mem_append]
      cases hend : (s.dropWhile (· = 32)).dropWhile (· ≠ 32) with
      | nil =>
        -- the last token has no blank behind it
        have hblank : 32 ∉ s.dropWhile (· = 32) := fun hmem => by
          simpa using List.dropWhile_eq_nil_iff.1 hend 32 hmem
        rw [if_neg hblank, List.tail_nil, strtokWrites_nil, ite_self]
        simp
      | cons c cs =>
        rw [hend, List.length_cons] at hlen
        refine ⟨fun w hw => ?_, fun w hw => ?_⟩
        · split at hw
          · obtain rfl := List.mem_singleton.1 hw
            simp only [Write.Inside]
            omega
          · cases hw
        · split at hw
          · cases hw
          · exact ih _ _ (by rw [List.tail_cons]; omega) w hw

/-! ## Command lines and lines -/

theorem mtdpartParseWrites_inside_iff (hlen : s.length < maxLineChar) :
    (∀ w ∈ mtdpartParseWrites s, w.Inside) ↔ TableFits s := by
  have hcopy : (strcpyWrite .mtdCmdline s).Inside := strcpyWrite_inside_iff.2 hlen
  have htokens : ∀ w ∈ strtokWrites .mtdCmdline mtdpartsKey (s.length + 1) 0 s, w.Inside :=
    strtokWrites_inside _ _ _ _ (by rw [Nat.zero_add]; exact hlen.le)
  rw [mtdpartParseWrites, TableFits, List.cons_append, List.forall_mem_cons, List.forall_mem_append]
  cases idAndEntries s with
  | none => exact ⟨fun _ _ h => absurd h (Option.not_mem_none _), fun _ => ⟨hcopy, htokens, by simp⟩⟩
  | some r =>
    have hwrites : (∀ w ∈ strncpyWrite .mtdId r.1 :: getPartWrites (maxPartitions - 1) 0 r.2,
        w.Inside)
        ↔ r.1.length ≤ 64 ∧ NamesFit (givenNames (maxPartitions - 1) r.2) := by
      rw [List.forall_mem_cons, strncpyWrite_inside_iff, getPartWrites_inside_iff _ _ _ (by decide)]
      rfl
    constructor
    · rintro ⟨-, -, hfits⟩ r' heq
      exact Option.some.inj heq ▸ hwrites.1 hfits
    · intro hfits
      exact ⟨hcopy, htokens, hwrites.2 (hfits r rfl)⟩

theorem parseCmdlineWrites_inside_iff (hlen : s.length < maxLineChar) :
    (∀ w ∈ parseCmdlineWrites s, w.Inside) ↔ TableFits s := by
  have hfirst : (⟨.mtdId, 0, 1⟩ : Write).Inside := by decide
  have hrdinfo : ∀ w ∈ getRdInfoWrites s, w.Inside := by
    rw [getRdInfoWrites, List.forall_mem_cons]
    exact ⟨strcpyWrite_inside_iff.2 hlen,
      strtokWrites_inside _ _ _ _ (by rw [Nat.zero_add]; exact hlen.le)⟩
  rw [parseCmdlineWrites, List.cons_append, List.forall_mem_cons, List.forall_mem_append,
    mtdpartParseWrites_inside_iff hlen]
  refine ⟨fun h => h.2.1, fun h => ⟨hfirst, h, ?_⟩⟩
  split
  · simp
  · exact hrdinfo

/-! ## The parser of the table -/

/-- An entry as it is stored. -/
def entryOf (parts name : List UInt8) : DiskPartition :=
  ⟨(getOffset (getSize parts).2).1, (getSize parts).1, 512, name, ascii "raw"⟩

theorem getName_eq_givenName (index : Nat) (parts : List UInt8) :
    getName index parts = match givenName parts with
      | none => .unclosed
      | some (none, rest) => .ok (defaultName index) rest
      | some (some name, rest) => if 32 ≤ name.length then .overflow else .ok name rest := by
  unfold getName givenName
  split
  · cases parts.tail.dropWhile (· ≠ 41) with
    | nil => rfl
    | cons c cs => rfl
  · rfl

section GetPart

variable {k : Nat} {parts : List UInt8} {name : Option (List UInt8)} {table : List DiskPartition}

theorem getPart_of_unclosed (h : givenName (getOffset (getSize parts).2).2 = none) :
    getPart k parts table = some table := by
  rw [getPart]
  simp only [getName_eq_givenName, h]

theorem getPart_of_long {text : List UInt8}
    (h : givenName (getOffset (getSize parts).2).2 = some (some text, rest)) (hlong : 32 ≤ text.length) :
    getPart k parts table = none := by
  rw [getPart]
  simp only [getName_eq_givenName, h, if_pos hlong]

theorem getPart_of_some (h : givenName (getOffset (getSize parts).2).2 = some (name, rest))
    (hshort : ∀ text ∈ name, text.length < 32) :
    getPart k parts table = match k with
      | 0 => some (table ++ [entryOf parts (name.getD (defaultName table.length))])
      | k + 1 =>
        if (skipOptions rest).head? = some 44 then
          getPart k (skipOptions rest).tail
            (table ++ [entryOf parts (name.getD (defaultName table.length))])
        else some (table ++ [entryOf parts (name.getD (defaultName table.length))]) := by
  rw [getPart]
  cases name with
  | none =>
    simp only [getName_eq_givenName, h]
    rfl
  | some text =>
    simp only [getName_eq_givenName, h, if_neg (Nat.not_le.2 (hshort text rfl))]
    rfl

theorem short_of_getPart {r : List DiskPartition}
    (hname : givenName (getOffset (getSize parts).2).2 = some (name, rest))
    (h : getPart k parts table = some r) : ∀ text ∈ name, text.length < 32 := by
  intro text htext
  obtain rfl := Option.mem_def.1 htext
  by_contra hlong
  rw [getPart_of_long hname (Nat.not_lt.1 hlong)] at h
  cases h

end GetPart

theorem mtdpartParse_eq (s : List UInt8) (mtd : CmdlineMtdPartition) :
    mtdpartParse s mtd =
      if maxLineChar ≤ s.length then none
      else match idAndEntries s with
        | none => some ((if (mtdpartsText s).isSome then 0 else 1 : Int), mtd)
        | some (id, entries) =>
          if 64 < id.length then none
          else (getPart (maxPartitions - 1 - mtd.parts.length) entries mtd.parts).map
            (fun parts => ((1 : Int), ⟨mtd.mtdId.store 0 id, parts⟩)) := by
  unfold mtdpartParse idAndEntries mtdpartsText
  split
  · rfl
  cases findMtdparts (s.length + 1) s with
  | none => rfl
  | some text =>
    dsimp only [Option.bind_some]
    cases text.dropWhile (· ≠ 58) with
    | nil => rfl
    | cons c cs => rfl

theorem length_valueOf_le (key line : List UInt8) : (valueOf key line).length ≤ line.length := by
  have hblanks : (valueOf key line).length ≤ (line.drop key.length).length :=
    (List.dropWhile_suffix _).length_le
  rw [List.length_drop] at hblanks
  exact hblanks.trans (Nat.sub_le _ _)

/-- A line with a command line has no other key. -/
theorem not_numberKeys {line : List UInt8} (h : (ascii "CMDLINE:").isPrefixOf line) :
    ¬ numberKeys.any (fun key => key.isPrefixOf line) ∧
      ¬ (line.head? = none ∨ line.head? = some 35) := by
  obtain ⟨rest, rfl⟩ := List.isPrefixOf_iff_prefix.1 h
  have hkey : ascii "CMDLINE:" ++ rest = 67 :: 77 :: 68 :: 76 :: 73 :: 78 :: 69 :: 58 :: rest := rfl
  rw [hkey]
  refine ⟨?_, by simp⟩
  simp [numberKeys, ascii]

theorem parseLineWrites_inside_iff (hlen : s.length < maxLineChar) :
    (∀ w ∈ parseLineWrites s, w.Inside) ↔ ∀ cmdLine ∈ lineCmdline s, TableFits cmdLine := by
  have hvalue : ∀ key, (valueOf key s).length < maxLineChar := fun key =>
    (length_valueOf_le key s).trans_lt hlen
  rw [lineCmdline]
  by_cases hcmd : (ascii "CMDLINE:").isPrefixOf s
  · have hcopy : (strcpyWrite .cmdLine (valueOf (ascii "CMDLINE:") s)).Inside :=
      strcpyWrite_inside_iff.2 (hvalue _)
    rw [parseLineWrites, if_neg (not_numberKeys hcmd).1, if_pos hcmd, if_pos hcmd, List.forall_mem_cons,
      parseCmdlineWrites_inside_iff (hvalue _)]
    exact ⟨fun h _ heq => Option.some.inj heq ▸ h.2, fun h => ⟨hcopy, h _ rfl⟩⟩
  · rw [if_neg hcmd]
    refine ⟨fun _ _ h => absurd h (Option.not_mem_none _), fun _ w hw => ?_⟩
    rw [parseLineWrites, if_neg hcmd] at hw
    split at hw
    · cases hw
    split at hw
    · obtain rfl := List.mem_singleton.1 hw
      exact strcpyWrite_inside_iff.2 (hvalue _)
    split at hw
    · obtain rfl := List.mem_singleton.1 hw
      exact strcpyWrite_inside_iff.2 (hvalue _)
    · cases hw

theorem lineWrites_inside_iff (hlen : s.length < maxLineChar) :
    (∀ w ∈ lineWrites s, w.Inside) ↔ ∀ cmdLine ∈ lineCmdline s, TableFits cmdLine := by
  have hcopy : (strcpyWrite .line s).Inside := strcpyWrite_inside_iff.2 hlen
  rw [lineWrites, List.forall_mem_cons]
  by_cases hskip : s.head? = none ∨ s.head? = some 35
  · have hnone : lineCmdline s = none := if_neg (fun h => (not_numberKeys h).2 hskip)
    rw [if_pos hskip, hnone]
    exact ⟨fun _ _ h => absurd h (Option.not_mem_none _), fun _ => ⟨hcopy, by simp⟩⟩
  · rw [if_neg hskip, parseLineWrites_inside_iff hlen]
    exact ⟨And.right, fun h => ⟨hcopy, h⟩⟩

/-! ## Texts -/

/-- A line and what is behind it are not longer than the text; if there is a text, it gets shorter. -/
theorem length_getline (s : List UInt8) :
    (getline s).1.length + (getline s).2.length ≤ s.length ∧
      (s ≠ [] → (getline s).2.length < s.length) := by
  induction s with
  | nil => exact ⟨le_refl _, fun h => absurd rfl h⟩
  | cons c cs ih =>
    rw [getline]
    split
    · simp
    split
    · simp only [List.length_cons]
      omega
    · rw [List.length_cons]
      omega

theorem nextLine_eq_some {line : List UInt8} (h : nextLine s = some (line, rest)) :
    line.length + rest.length ≤ s.length ∧ rest.length < s.length := by
  unfold nextLine at h
  split at h
  · cases h
  next hne =>
  have hlen := length_getline s
  rw [Option.some.inj h] at hlen
  exact ⟨hlen.1, hlen.2 hne⟩

/-- The loop goes through the lines one after another, to the end of the text. -/
theorem paramLines_eq (s : List UInt8) :
    paramLines s = match nextLine s with
      | none => []
      | some (line, rest) => line :: paramLines rest := by
  rw [paramLines, Scan.all_eq (fun _ _ _ h => (nextLine_eq_some h).2)]
  cases nextLine s with
  | none => rfl
  | some r => rfl

theorem length_of_mem_paramLines : ∀ line ∈ paramLines s, line.length ≤ s.length := by
  refine Scan.forall_mem_all (I := fun t => t.length ≤ s.length) ?_ le_rfl
  intro t line rest ht hcut
  obtain ⟨hlen, -⟩ := nextLine_eq_some hcut
  exact ⟨by omega, by omega⟩

end Fits

/-! ## The theorem -/

theorem parameterText_length {param : Mem} (h : checkParam param = 0) :
    (parameterText param).length < maxLineChar := by
  rw [parameterText, Mem.length_bytes]
  unfold checkParam at h
  split at h
  · cases h
  split at h
  · cases h
  next hlen =>
  simp only [maxLoaderParam, not_lt] at hlen
  simp only [maxLineChar]
  omega

/-- **The parser writes only inside its arrays, for a parameter file that `CheckParam` accepts, if and
    only if in every command line of the text the id of the flash has 64 characters at most, and each
    name that the parser comes to 32 at most.** -/
theorem parseParam_inside_iff (param : Mem) (h : checkParam param = 0) :
    (∀ w ∈ parseParamWrites (parameterText param), w.Inside)
      ↔ ∀ line ∈ paramLines (parameterText param),
          ∀ cmdLine ∈ lineCmdline line, TableFits cmdLine := by
  rw [parseParamWrites, List.forall_mem_flatMap]
  refine forall₂_congr fun line hline => ?_
  exact lineWrites_inside_iff ((length_of_mem_paramLines line hline).trans_lt (parameterText_length h))

/-- A parameter file with a text. -/
def paramFile (text : List UInt8) : Mem :=
  Mem.ofList (Mem.le32 parmTag ++ Mem.le32 text.length ++ text ++ Mem.le32 (crc32Rk text))

/-- A table with an ordinary name. -/
theorem parseParam_inside_short :
    checkParam (paramFile (ascii "CMDLINE:mtdparts=a:1@2(b)")) = 0 ∧
      ∀ w ∈ parseParamWrites (parameterText (paramFile (ascii "CMDLINE:mtdparts=a:1@2(b)"))), w.Inside :=
  ⟨by decide +kernel, (parseParam_inside_iff _ (by decide +kernel)).2 (by decide +kernel)⟩

/-- A name of 33 characters and an id of 65: both are written behind the end of their arrays. -/
theorem parseParam_outside :
    checkParam (paramFile (ascii "CMDLINE:mtdparts=a:1@2(" ++ List.replicate 33 98 ++ ascii ")")) = 0 ∧
      ⟨.name, 0, 33⟩ ∈ parseParamWrites (parameterText
        (paramFile (ascii "CMDLINE:mtdparts=a:1@2(" ++ List.replicate 33 98 ++ ascii ")"))) ∧
      ¬ (⟨.name, 0, 33⟩ : Write).Inside ∧
      checkParam (paramFile (ascii "CMDLINE:mtdparts=" ++ List.replicate 65 97 ++ ascii ":1@2(b)")) = 0 ∧
      ⟨.mtdId, 0, 65⟩ ∈ parseParamWrites (parameterText
        (paramFile (ascii "CMDLINE:mtdparts=" ++ List.replicate 65 97 ++ ascii ":1@2(b)"))) ∧
      ¬ (⟨.mtdId, 0, 65⟩ : Write).Inside := by
  refine ⟨?_, ?_, ?_, ?_, ?_, ?_⟩
  · decide +kernel
  · decide +kernel
  · decide
  · decide +kernel
  · decide +kernel
  · decide

end Param
