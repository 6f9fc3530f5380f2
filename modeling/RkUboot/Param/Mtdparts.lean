import RkUboot.Fastboot.Basic

set_option autoImplicit false

/-! # The partition table in the command line (`rkloader/parameter.c`)

The kernel command line of the parameter file holds the partition table, as in
`mtdparts=rk29xxnand:0x2000@0x4000(uboot),-@0x8000(system)`. This file has the parser of it and the
proof that it inverts printing, for every spelling of the numbers.

Texts are the characters before the terminator. Where the source would write behind the end of one of
its arrays (`cmdline`, `mtd_id`, `name`), the model has no result. -/

open Fastboot

namespace Param

/-! ## The parser -/

/-- `SIZE_REMAINING`. -/
def sizeRemaining : Nat := 0xFFFFFFFF

/-- `MAX_LINE_CHAR`. -/
def maxLineChar : Nat := 1024 * 64

/-- `CONFIG_MAX_PARTITIONS`. -/
def maxPartitions : Nat := 32

/-- `cmdline_mtd_partition`; `parts` are the first `num_parts` entries. -/
structure CmdlineMtdPartition where
  /-- `mtd_id`, an array of 64 characters. -/
  mtdId : Mem
  parts : List DiskPartition

/-- Model of `memparse`: a number, and perhaps a suffix that scales it. -/
def memparse (ptr : List UInt8) : Nat × List UInt8 :=
  let r := simpleStrtoul 0 ptr
  match r.2 with
  | [] => r
  | c :: cs =>
    if c = 71 ∨ c = 103 then (r.1 * 2 ^ 30 % 2 ^ 64, cs)
    else if c = 77 ∨ c = 109 then (r.1 * 2 ^ 20 % 2 ^ 64, cs)
    else if c = 75 ∨ c = 107 then (r.1 * 2 ^ 10 % 2 ^ 64, cs)
    else r

/-- The size at the start of an entry. -/
def getSize (parts : List UInt8) : Nat × List UInt8 :=
  if parts.head? = some 45 then (sizeRemaining, parts.tail)
  else ((memparse parts).1 % 2 ^ 32, (memparse parts).2)

/-- The offset of an entry, 0 if there is none. -/
def getOffset (parts : List UInt8) : Nat × List UInt8 :=
  if parts.head? = some 64 then ((memparse parts.tail).1 % 2 ^ 32, (memparse parts.tail).2)
  else (0, parts)

/-- `sprintf("Partition_%03d")`. -/
def defaultName (index : Nat) : List UInt8 :=
  ascii "Partition_" ++ ((Nat.toDigits 10 index).map (fun c => UInt8.ofNat c.toNat)).leftpad 3 48

/-- The name of an entry. -/
inductive NameResult where
  /-- There is no closing parenthesis. -/
  | unclosed
  /-- The name does not fit `name[PART_NAME]` with its terminator. -/
  | overflow
  | ok (name rest : List UInt8)
  deriving DecidableEq, Repr

def getName (index : Nat) (parts : List UInt8) : NameResult :=
  if parts.head? = some 40 then
    match parts.tail.dropWhile (· ≠ 41) with
    | [] => .unclosed
    | _ :: rest =>
      let name := parts.tail.takeWhile (· ≠ 41)
      if 32 ≤ name.length then .overflow else .ok name rest
  else .ok (defaultName index) parts

/-- The options "ro" and "lk" are skipped; the flags they set are not kept. -/
def skipOptions (parts : List UInt8) : List UInt8 :=
  let parts := if (ascii "ro").isPrefixOf parts then parts.drop 2 else parts
  if (ascii "lk").isPrefixOf parts then parts.drop 2 else parts

/-- Model of `get_part`, with room for `k` entries behind this one. The result is the table; the
    return value 0 for an unclosed name is not looked at by any caller. -/
def getPart : Nat → List UInt8 → List DiskPartition → Option (List DiskPartition)
  | k, parts, table =>
    let size := getSize parts
    let offset := getOffset size.2
    match getName table.length offset.2 with
    | .unclosed => some table
    | .overflow => none
    | .ok name rest =>
      let rest := skipOptions rest
      let table := table ++ [⟨offset.1, size.1, 512, name, ascii "raw"⟩]
      match k with
      | 0 => some table
      | k + 1 => if rest.head? = some 44 then getPart k rest.tail table else some table

/-- Model of `strtok` for a blank: the token, and where the next call goes on. -/
def strtok (s : List UInt8) : Option (List UInt8 × List UInt8) :=
  match s.dropWhile (· = 32) with
  | [] => none
  | c :: cs => some ((c :: cs).takeWhile (· ≠ 32), ((c :: cs).dropWhile (· ≠ 32)).tail)

/-- `"mtdparts="`. -/
def mtdpartsKey : List UInt8 := ascii "mtdparts="

/-- The token loop of `mtdpart_parse`, at most `k` rounds: what follows the key. -/
def findMtdparts : Nat → List UInt8 → Option (List UInt8)
  | 0, _ => none
  | k + 1, s =>
    match strtok s with
    | none => none
    | some (token, rest) =>
      if mtdpartsKey.isPrefixOf token then some (token.drop mtdpartsKey.length)
      else findMtdparts k rest

/-- Model of `mtdpart_parse`; every token takes a character, so there are no more rounds than
    characters. -/
def mtdpartParse (string : List UInt8) (mtd : CmdlineMtdPartition) :
    Option (Int × CmdlineMtdPartition) :=
  if maxLineChar ≤ string.length then none
  else
    match findMtdparts (string.length + 1) string with
    | none => some (1, mtd)
    | some s =>
      match s.dropWhile (· ≠ 58) with
      | [] => some (0, mtd)
      | _ :: rest =>
        let id := s.takeWhile (· ≠ 58)
        if 64 < id.length then none
        else
          (getPart (maxPartitions - 1 - mtd.parts.length) rest mtd.parts).map
            (fun parts => (1, ⟨mtd.mtdId.store 0 id, parts⟩))

/-! ## Printing -/

/-- The value of a list of hexadecimal digits. -/
def hexValue (ds : List UInt8) : Nat := ds.foldl (fun acc c => acc * 16 + (digitValue c).getD 0) 0

/-- The text `0x<ds>` spells the number `n`; both cases and leading zeros are allowed. -/
def SpellsHex (n : Nat) (text : List UInt8) : Prop :=
  ∃ ds, text = ascii "0x" ++ ds ∧ ds ≠ [] ∧ (∀ c ∈ ds, (digitValue c).isSome) ∧ hexValue ds = n

/-- The text of one entry: `<size>@<offset>(<name>)`, the size perhaps as `-`. -/
def Prints (part : DiskPartition) (text : List UInt8) : Prop :=
  ∃ size offset, text = size ++ ascii "@" ++ offset ++ ascii "(" ++ part.name ++ ascii ")" ∧
    (SpellsHex part.size size ∨ part.size = sizeRemaining ∧ size = ascii "-") ∧
    SpellsHex part.start offset

/-- A partition that the table can hold. -/
structure PartOk (part : DiskPartition) : Prop where
  size : part.size < 2 ^ 32
  start : part.start < 2 ^ 32
  blksz : part.blksz = 512
  type : part.type = ascii "raw"
  name_pos : 1 ≤ part.name.length
  name_le : part.name.length ≤ 31
  /-- No closing parenthesis, no blank and no terminator. -/
  chars : ∀ c ∈ part.name, c ≠ 41 ∧ c ≠ 32 ∧ c ≠ 0

/-- The token for a table: entries separated by commas. -/
def mtdpartsToken (id : List UInt8) (texts : List (List UInt8)) : List UInt8 :=
  mtdpartsKey ++ id ++ ascii ":" ++ [44].intercalate texts

/-- A token can start behind `before`. -/
def TokenStart (before : List UInt8) : Prop := before = [] ∨ before.getLast? = some 32

/-! ## Numbers -/

variable {rest text word : List UInt8} {k n : Nat} {c : UInt8}

section Numbers

theorem digitValue_lt {v : Nat} (h : digitValue c = some v) : v < 16 := by
  unfold digitValue at h
  split at h
  · next hc =>
    have := hc.2
    rw [UInt8.le_iff_toNat_le] at this
    simp only [Option.some.injEq, UInt8.reduceToNat] at h this
    omega
  split at h
  · next hc =>
    have := hc.2
    rw [UInt8.le_iff_toNat_le] at this
    simp only [Option.some.injEq, UInt8.reduceToNat] at h this
    omega
  split at h
  · next hc =>
    have := hc.2
    rw [UInt8.le_iff_toNat_le] at this
    simp only [Option.some.injEq, UInt8.reduceToNat] at h this
    omega
  · cases h

theorem le_foldl_hex (ds : List UInt8) (acc : Nat) :
    acc ≤ ds.foldl (fun acc c => acc * 16 + (digitValue c).getD 0) acc := by
  induction ds generalizing acc with
  | nil => exact le_rfl
  | cons c cs ih =>
    rw [List.foldl_cons]
    exact (by omega : acc ≤ acc * 16 + (digitValue c).getD 0).trans (ih _)

/-- The digit loop reads all digits of a number that fits. -/
theorem strtoulDigits_hex (ds : List UInt8) (acc : Nat)
    (hds : ∀ c ∈ ds, (digitValue c).isSome) (hrest : rest.head?.bind digitValue = none)
    (hfits : ds.foldl (fun acc c => acc * 16 + (digitValue c).getD 0) acc < 2 ^ 64) :
    strtoulDigits 16 acc (ds ++ rest)
      = (ds.foldl (fun acc c => acc * 16 + (digitValue c).getD 0) acc, rest) := by
  induction ds generalizing acc with
  | nil =>
    cases rest with
    | nil => rfl
    | cons c cs =>
      have hc : digitValue c = none := hrest
      simp only [List.nil_append, strtoulDigits, hc, List.foldl_nil]
  | cons c cs ih =>
    obtain ⟨v, hv⟩ := Option.isSome_iff_exists.1 (hds c (.head _))
    rw [List.foldl_cons] at hfits ⊢
    rw [hv, Option.getD_some] at hfits ⊢
    have hlt : acc * 16 + v < 2 ^ 64 := (le_foldl_hex cs _).trans_lt hfits
    simp only [List.cons_append, strtoulDigits, hv, if_pos (digitValue_lt hv)]
    rw [Nat.mod_eq_of_lt hlt]
    exact ih _ (fun d hd => hds d (List.mem_cons_of_mem c hd)) hfits

theorem SpellsHex.simpleStrtoul (h : SpellsHex n text)
    (hn : n < 2 ^ 64) (hrest : rest.head?.bind digitValue = none) :
    simpleStrtoul 0 (text ++ rest) = (n, rest) := by
  obtain ⟨ds, rfl, hne, hds, rfl⟩ := h
  obtain ⟨d, ds, rfl⟩ := List.exists_cons_of_ne_nil hne
  have hx : ascii "0x" = [48, 120] := by decide
  have hhead : ((120 :: (d :: ds ++ rest))[1]?.bind digitValue).isSome := hds d (.head _)
  rw [hx, List.append_assoc, List.cons_append, List.cons_append, List.nil_append]
  simp only [Fastboot.simpleStrtoul, if_true, List.head?_cons, true_and]
  rw [if_pos hhead]
  exact strtoulDigits_hex (d :: ds) 0 hds hrest hn

/-- A number is read up to a character that is neither a digit nor a suffix. -/
theorem SpellsHex.memparse (h : SpellsHex n text)
    (hn : n < 2 ^ 32) (hc : c = 64 ∨ c = 40) :
    memparse (text ++ c :: rest) = (n, c :: rest) := by
  have hdigit : (c :: rest).head?.bind digitValue = none := by
    rcases hc with rfl | rfl
    · rfl
    · rfl
  unfold Param.memparse
  rw [h.simpleStrtoul (by omega) hdigit]
  rcases hc with rfl | rfl
  · rfl
  · rfl

/-- A number does not start with the sign for the remaining size. -/
theorem SpellsHex.head (h : SpellsHex n text) :
    ∃ cs, text = 48 :: cs := by
  obtain ⟨ds, rfl, -⟩ := h
  exact ⟨120 :: ds, rfl⟩

end Numbers

/-! ## Entries -/

variable {texts : List (List UInt8)} {parts : List DiskPartition}

section Entries

variable {part : DiskPartition} {text rest : List UInt8}

theorem getSize_print {size : List UInt8}
    (h : SpellsHex part.size size ∨ part.size = sizeRemaining ∧ size = ascii "-") (hok : PartOk part) :
    getSize (size ++ 64 :: rest) = (part.size, 64 :: rest) := by
  unfold getSize
  obtain hspells | ⟨hsize, rfl⟩ := h
  · obtain ⟨cs, rfl⟩ := hspells.head
    rw [if_neg (by simp), hspells.memparse hok.size (.inl rfl), Nat.mod_eq_of_lt hok.size]
  · rw [hsize]
    rfl

theorem getOffset_print {offset : List UInt8} (h : SpellsHex part.start offset) (hok : PartOk part) :
    getOffset (64 :: (offset ++ 40 :: rest)) = (part.start, 40 :: rest) := by
  unfold getOffset
  rw [List.head?_cons, if_pos rfl, List.tail_cons, h.memparse hok.start (.inr rfl),
    Nat.mod_eq_of_lt hok.start]

theorem getName_print (hok : PartOk part) (index : Nat) :
    getName index (40 :: (part.name ++ 41 :: rest)) = .ok part.name rest := by
  have hname : ∀ c ∈ part.name, (decide (c ≠ 41)) = true := fun c hc => by
    simpa using (hok.chars c hc).1
  have hlen := hok.name_le
  unfold getName
  rw [List.head?_cons, if_pos rfl, List.tail_cons, List.dropWhile_append_of_pos hname,
    List.takeWhile_append_of_pos hname]
  simp only [List.dropWhile_cons, List.takeWhile_cons]
  simp only [ne_eq, not_true_eq_false, decide_false, Bool.false_eq_true, if_false, List.append_nil]
  rw [if_neg (by omega)]

theorem skipOptions_of_end (h : rest = [] ∨ ∃ cs, rest = 44 :: cs) : skipOptions rest = rest := by
  obtain rfl | ⟨cs, rfl⟩ := h
  · rfl
  · rfl

/-- One printed entry is parsed to the partition. -/
theorem getPart_print (h : Prints part text) (hok : PartOk part)
    (hrest : rest = [] ∨ ∃ cs, rest = 44 :: cs) (k : Nat) (table : List DiskPartition) :
    getPart k (text ++ rest) table
      = match k with
        | 0 => some (table ++ [part])
        | k + 1 =>
          if rest.head? = some 44 then getPart k rest.tail (table ++ [part])
          else some (table ++ [part]) := by
  obtain ⟨size, offset, rfl, hsize, hoffset⟩ := h
  have hpart : (⟨part.start, part.size, 512, part.name, ascii "raw"⟩ : DiskPartition) = part := by
    rw [← hok.blksz, ← hok.type]
  have htext : size ++ ascii "@" ++ offset ++ ascii "(" ++ part.name ++ ascii ")" ++ rest
      = size ++ 64 :: (offset ++ 40 :: (part.name ++ 41 :: rest)) := by
    simp [ascii]
  rw [htext, getPart]
  simp only [getSize_print hsize hok, getOffset_print hoffset hok, getName_print hok,
    skipOptions_of_end hrest, hpart]

theorem intercalate_comma (text' : List UInt8) (texts : List (List UInt8)) :
    [44].intercalate (text :: text' :: texts) = text ++ 44 :: [44].intercalate (text' :: texts) := by
  rw [List.intercalate_cons_cons]
  simp

/-- The entries of a table, separated by commas, are parsed to the partitions. -/
theorem getPart_intercalate (h : List.Forall₂ Prints parts texts)
    (hok : ∀ part ∈ parts, PartOk part) (hne : parts ≠ []) (hk : parts.length ≤ k + 1)
    (table : List DiskPartition) :
    getPart k ([44].intercalate texts) table = some (table ++ parts) := by
  induction h generalizing k table with
  | nil => exact absurd rfl hne
  | @cons part text parts texts hprint htail ih =>
    have hpart := hok part (.head _)
    cases htail with
    | nil =>
      rw [List.intercalate_singleton, ← List.append_nil text,
        getPart_print hprint hpart (.inl rfl)]
      cases k with
      | zero => rfl
      | succ k => rfl
    | @cons part' text' parts texts hprint' htail =>
      rw [intercalate_comma, getPart_print hprint hpart (.inr ⟨_, rfl⟩)]
      obtain ⟨k, rfl⟩ : ∃ m, k = m + 1 :=
        ⟨k - 1, by simp only [List.length_cons] at hk; omega⟩
      simp only [List.head?_cons, if_true, List.tail_cons]
      rw [ih (fun p hp => hok p (.tail _ hp)) nofun
        (by simp only [List.length_cons] at hk ⊢; omega), List.append_assoc]
      rfl

end Entries

/-! ## The command line -/

section CommandLine

theorem strtok_blank (s : List UInt8) : strtok (32 :: s) = strtok s := rfl

/-- A word is the first token. -/
theorem strtok_word (hne : word ≠ []) (hword : 32 ∉ word)
    (hrest : rest = [] ∨ ∃ cs, rest = 32 :: cs) :
    strtok (word ++ rest) = some (word, rest.tail) := by
  obtain ⟨c, cs, rfl⟩ := List.exists_cons_of_ne_nil hne
  have hall : ∀ d ∈ c :: cs, decide (d ≠ 32) = true := fun d hd =>
    decide_eq_true (fun h => hword (h ▸ hd))
  have hc : ¬ decide (c = 32) = true := by
    have := hall c (.head _)
    simpa using this
  have hdrop : (c :: cs ++ rest).dropWhile (· = 32) = c :: cs ++ rest := by
    rw [List.cons_append, List.dropWhile_cons, if_neg hc]
  have hend : rest.takeWhile (· ≠ 32) = [] ∧ rest.dropWhile (· ≠ 32) = rest := by
    obtain rfl | ⟨ds, rfl⟩ := hrest
    · exact ⟨rfl, rfl⟩
    · exact ⟨by simp, by simp⟩
  unfold strtok
  rw [hdrop]
  simp only [List.cons_append]
  rw [← List.cons_append, List.takeWhile_append_of_pos hall, List.dropWhile_append_of_pos hall,
    hend.1, hend.2, List.append_nil]

/-- No token of `before` starts with the key. -/
def NoKey (before : List UInt8) : Prop :=
  ∀ a b, before = a ++ mtdpartsKey ++ b → ¬ TokenStart a

/-- Where tokens start is not changed by what is before a blank. -/
theorem tokenStart_append_blank (word : List UInt8) (cs : List UInt8) :
    TokenStart (word ++ 32 :: cs) ↔ TokenStart cs := by
  have hlast : (word ++ 32 :: cs).getLast? = some (cs.getLast?.getD 32) := by
    rw [List.getLast?_append, List.getLast?_cons]
    rfl
  unfold TokenStart
  rw [hlast]
  cases cs with
  | nil => simp
  | cons d ds => simp [List.getLast?_cons]

theorem NoKey.of_append_blank {cs : List UInt8} (h : NoKey (word ++ 32 :: cs)) : NoKey cs := by
  intro a b heq hstart
  refine h (word ++ 32 :: a) b ?_ ((tokenStart_append_blank word a).2 hstart)
  rw [heq]
  simp

/-- Before the start of a token, a word ends in a blank. -/
theorem TokenStart.split {before : List UInt8} (h : TokenStart before) (hne : before ≠ []) :
    ∃ word cs, before = word ++ 32 :: cs ∧ 32 ∉ word := by
  have hmem : (32 : UInt8) ∈ before := by
    obtain h | h := h
    · exact absurd h hne
    · exact List.mem_of_getLast? h
  obtain ⟨word, cs, rfl, hword⟩ := List.eq_append_cons_of_mem hmem
  exact ⟨word, cs, rfl, hword⟩

/-- The loop gets to the first token with the key. -/
theorem findMtdparts_token {s after : List UInt8} (htoken : 32 ∉ s)
    (hafter : after = [] ∨ ∃ cs, after = 32 :: cs) (before : List UInt8) (hstart : TokenStart before)
    (hnokey : NoKey before) (hk : before.length < k) :
    findMtdparts k (before ++ (mtdpartsKey ++ s ++ after)) = some s := by
  induction hn : before.length using Nat.strongRecOn generalizing before k with
  | ind n ih =>
    obtain ⟨k, rfl⟩ : ∃ m, k = m + 1 := ⟨k - 1, by omega⟩
    by_cases hne : before = []
    · subst hne
      have hword : 32 ∉ mtdpartsKey ++ s := by
        rw [List.mem_append, not_or]
        exact ⟨by decide, htoken⟩
      rw [List.nil_append, findMtdparts, strtok_word (by simp [mtdpartsKey, ascii]) hword hafter]
      simp
    obtain ⟨word, cs, rfl, hword⟩ := hstart.split hne
    have hstart' := (tokenStart_append_blank word cs).1 hstart
    rw [List.length_append, List.length_cons] at hn hk
    have hlength : cs.length < n := by omega
    by_cases hblank : word = []
    · -- a blank before the next token
      subst hblank
      have hskip : findMtdparts (k + 1) ([] ++ 32 :: cs ++ (mtdpartsKey ++ s ++ after))
          = findMtdparts (k + 1) (cs ++ (mtdpartsKey ++ s ++ after)) := by
        rfl
      rw [hskip]
      exact ih cs.length hlength cs hstart' hnokey.of_append_blank (by omega) rfl
    · -- the word is a token without the key
      have hprefix : ¬ mtdpartsKey.isPrefixOf word = true := by
        intro h
        obtain ⟨b, rfl⟩ := List.isPrefixOf_iff_prefix.1 h
        exact hnokey [] (b ++ 32 :: cs) (by simp) (.inl rfl)
      have hlist : word ++ 32 :: cs ++ (mtdpartsKey ++ s ++ after)
          = word ++ 32 :: (cs ++ (mtdpartsKey ++ s ++ after)) := by simp
      rw [hlist, findMtdparts, strtok_word hblank hword (.inr ⟨_, rfl⟩)]
      simp only [if_neg hprefix, List.tail_cons]
      exact ih cs.length hlength cs hstart' hnokey.of_append_blank (by omega) rfl

end CommandLine

/-! ## Round trip -/

section RoundTrip

theorem SpellsHex.no_blank (h : SpellsHex n text) : 32 ∉ text := by
  obtain ⟨ds, rfl, -, hds, -⟩ := h
  rw [List.mem_append, not_or]
  exact ⟨by decide, fun hmem => nomatch (hds 32 hmem)⟩

theorem Prints.no_blank {part : DiskPartition} (h : Prints part text)
    (hok : PartOk part) : 32 ∉ text := by
  obtain ⟨size, offset, rfl, hsize, hoffset⟩ := h
  have hsize' : 32 ∉ size := by
    obtain hsize | ⟨-, rfl⟩ := hsize
    · exact hsize.no_blank
    · decide
  have hname : 32 ∉ part.name := fun hmem => (hok.chars 32 hmem).2.1 rfl
  simp only [List.mem_append, not_or]
  exact ⟨⟨⟨⟨⟨hsize', by decide⟩, hoffset.no_blank⟩, by decide⟩, hname⟩, by decide⟩

theorem no_blank_intercalate
    (h : List.Forall₂ Prints parts texts) (hok : ∀ part ∈ parts, PartOk part) :
    32 ∉ [44].intercalate texts := by
  induction h with
  | nil => simp
  | @cons part text parts texts hprint htail ih =>
    have htext := hprint.no_blank (hok part (.head _))
    have hrest := ih (fun p hp => hok p (.tail _ hp))
    cases htail with
    | nil =>
      rw [List.intercalate_singleton]
      exact htext
    | cons hprint' htail =>
      rw [intercalate_comma, List.mem_append, List.mem_cons, not_or, not_or]
      exact ⟨htext, by decide, hrest⟩

/-- **Printing and parsing.** A table that is printed as a token of the command line is what the parser
    finds, unless an earlier token has the key too. -/
theorem mtdpartParse_print {id before after : List UInt8} {parts : List DiskPartition}
    {texts : List (List UInt8)} {mtd : CmdlineMtdPartition}
    (hid : id.length ≤ 64 ∧ 58 ∉ id ∧ 32 ∉ id) (hparts : 1 ≤ parts.length ∧ parts.length ≤ 32)
    (hok : ∀ part ∈ parts, PartOk part) (hprint : List.Forall₂ Prints parts texts)
    (hstart : TokenStart before) (hnokey : NoKey before)
    (hafter : after = [] ∨ ∃ cs, after = 32 :: cs)
    (hline : (before ++ mtdpartsToken id texts ++ after).length < maxLineChar)
    (hempty : mtd.parts = []) :
    mtdpartParse (before ++ mtdpartsToken id texts ++ after) mtd
      = some (1, ⟨mtd.mtdId.store 0 id, parts⟩) := by
  have hne : parts ≠ [] := List.ne_nil_of_length_pos hparts.1
  have htoken : 32 ∉ id ++ ascii ":" ++ [44].intercalate texts := by
    simp only [List.mem_append, not_or]
    exact ⟨⟨hid.2.2, by decide⟩, no_blank_intercalate hprint hok⟩
  have hfind := findMtdparts_token htoken hafter before hstart hnokey
    (k := (before ++ mtdpartsToken id texts ++ after).length + 1) (by simp)
  have hsplit : before ++ (mtdpartsKey ++ (id ++ ascii ":" ++ [44].intercalate texts) ++ after)
      = before ++ mtdpartsToken id texts ++ after := by
    simp [mtdpartsToken]
  rw [hsplit] at hfind
  have hall : ∀ c ∈ id, decide (c ≠ 58) = true := fun c hc =>
    decide_eq_true (fun h => hid.2.1 (h ▸ hc))
  have hcolon : id ++ ascii ":" ++ [44].intercalate texts = id ++ 58 :: [44].intercalate texts := by
    rw [List.append_assoc]
    rfl
  unfold mtdpartParse
  rw [if_neg (by omega), hfind, hcolon]
  simp only [List.dropWhile_append_of_pos hall, List.takeWhile_append_of_pos hall]
  simp only [List.dropWhile_cons, List.takeWhile_cons, ne_eq, not_true_eq_false, decide_false,
    Bool.false_eq_true, if_false, List.append_nil]
  rw [if_neg (by omega), hempty, getPart_intercalate hprint hok hne (by simp [maxPartitions]; omega)]
  rfl

/-- A table of one partition, as its text `0x3@0x4(y)` says. -/
def partY : DiskPartition := ⟨4, 3, 512, ascii "y", ascii "raw"⟩

def textY : List UInt8 := ascii "0x3@0x4(y)"

def emptyTable : CmdlineMtdPartition := ⟨Mem.zero, []⟩

theorem partY_prints : PartOk partY ∧ Prints partY textY := by
  refine ⟨⟨by decide, by decide, rfl, rfl, by decide, by decide, by simp [partY, ascii]⟩,
    ascii "0x3", ascii "0x4", by decide, .inl ⟨ascii "3", ?_⟩, ascii "4", ?_⟩
  · decide +kernel
  · decide +kernel

/-- The partition that the text `-@0x7(z)` says. -/
def partZ : DiskPartition := ⟨7, sizeRemaining, 512, ascii "z", ascii "raw"⟩

/-- Two entries, in the middle of a command line. -/
theorem mtdpartParse_print_middle :
    mtdpartParse (ascii "quiet " ++ mtdpartsToken (ascii "b") [textY, ascii "-@0x7(z)"] ++ ascii " rw")
        emptyTable
      = some (1, ⟨emptyTable.mtdId.store 0 (ascii "b"), [partY, partZ]⟩) := by
  have hkey : ¬ mtdpartsKey <:+: ascii "quiet " := by decide
  have hokZ : PartOk partZ :=
    ⟨by decide, by decide, rfl, rfl, by decide, by decide, by simp [partZ, ascii]⟩
  have hprintZ : Prints partZ (ascii "-@0x7(z)") :=
    ⟨ascii "-", ascii "0x7", by decide, .inr ⟨rfl, rfl⟩, ascii "7",
      rfl, by decide, by simp [ascii, digitValue], rfl⟩
  exact mtdpartParse_print (by decide) (by decide) (by simpa using ⟨partY_prints.1, hokZ⟩)
    (.cons partY_prints.2 (.cons hprintZ .nil)) (.inr (by decide))
    (fun a b h _ => hkey ⟨a, b, h.symm⟩) (.inr ⟨ascii "rw", by decide⟩) (by decide) rfl

/-- The first token with the key is the one that counts; the id ends at the first colon; and an id of
    65 characters is written behind the end of its array. -/
theorem mtdpartParse_other_table :
    PartOk partY ∧ Prints partY textY ∧ TokenStart (ascii "mtdparts=a:0x1@0x2(x) ") ∧
      (mtdpartParse (ascii "mtdparts=a:0x1@0x2(x) " ++ mtdpartsToken (ascii "b") [textY])
        emptyTable).map (fun r => r.2.parts) = some [⟨2, 1, 512, ascii "x", ascii "raw"⟩] ∧
      (mtdpartParse (mtdpartsToken (ascii "b:c") [textY]) emptyTable).map (fun r => r.2.parts)
        = some [⟨0, 0, 512, ascii "Partition_000", ascii "raw"⟩] ∧
      (mtdpartParse (mtdpartsToken (List.replicate 65 98) [textY]) emptyTable).isNone := by
  refine ⟨partY_prints.1, partY_prints.2, .inr ?_, ?_, ?_, ?_⟩
  · decide
  · decide +kernel
  · decide +kernel
  · decide +kernel

end RoundTrip

end Param
