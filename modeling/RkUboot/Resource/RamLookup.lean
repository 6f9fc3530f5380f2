import RkUboot.Resource.Basic

set_option autoImplicit false

/-! # Looking up in memory stays inside the buffer

`get_content_ram` gets a buffer and its length. It compares the length with the size of the index table,
but not before it has read the header, and only if there are at most `0xFFFF` entries; the difference
`len - header_size` is unsigned and wraps for a buffer of less than a block; and the place of the
content, which the entry gives, is compared with nothing.

In the model of this file a read outside of the buffer ends the lookup, so nothing depends on what lies
there. -/

namespace Resource

/-! ## The lookup with its reads -/

/-- How a lookup ends. -/
inductive Lookup where
  /-- A read outside of the buffer. -/
  | outside
  | notFound
  /-- `load_addr` from the start of the buffer, and `content_size`. -/
  | found (loadAddr contentSize : Nat)
  deriving DecidableEq, Repr

/-- Where entry `i` is in the buffer; `i * tbl_entry_size * BLOCK_SIZE` is an `int`. -/
def entryOffset (i : Nat) : Int := 512 + ((512 * i : Nat) : Int).bmod (2 ^ 32)

/-- The loop of `get_entry_ram`, `k` entries to go from entry `i`. An entry has 268 bytes. -/
def scanEntries (buf : Mem) (len : Nat) (path : List UInt8) : Nat → Nat → Lookup
  | 0, _ => .notFound
  | k + 1, i =>
    if entryOffset i < 0 ∨ (len : Int) < entryOffset i + 268 then .outside
    else
      let entry := (entryOffset i).toNat
      if buf.bytes entry 4 ≠ [69, 78, 84, 82] then .notFound
      else if strncmpEq buf (entry + 4) path 256 then
        .found (buf.u32 (entry + 260) * 512 % 2 ^ 32) (buf.u32 (entry + 264))
      else scanEntries buf len path k (i + 1)

/-- Model of `get_content_ram` with its reads. The header has 16 bytes; a header that is accepted says
    that it takes one block. -/
def lookupRam (buf : Mem) (len : UInt64) (path : List UInt8) : Lookup :=
  if len.toNat < 16 then .outside
  else if headerOk buf = false then .notFound
  else if tblEntryNum buf ≤ 0xFFFF ∧ (len - 512).toNat < tblEntryNum buf * 512 then .notFound
  else scanEntries buf len.toNat path (tblEntryNum buf) 0

/-- All reads are inside of the buffer, and so is the content that is found. -/
def Lookup.Safe (len : Nat) : Lookup → Prop
  | .outside => False
  | .notFound => True
  | .found loadAddr contentSize => ∀ x, loadAddr ≤ x → x < loadAddr + contentSize → x < len

/-! ## Entries -/

section Entries

variable (buf : Mem) (path : List UInt8)

/-- Entry `i` has the tag. -/
def HasTag (i : Nat) : Prop := buf.bytes (512 + 512 * i) 4 = [69, 78, 84, 82]
  deriving Decidable

/-- Entry `i` is for the path. -/
def HasPath (i : Nat) : Prop := strncmpEq buf (512 + 512 * i + 4) path 256 = true
  deriving Decidable

/-- The lookup passes by the entries from `i` to `j`. -/
def Passes (i j : Nat) : Prop := ∀ n, i ≤ n → n < j → HasTag buf n ∧ ¬ HasPath buf path n

/-- The content of entry `i` is inside of the buffer. -/
def ContentInside (len i : Nat) : Prop :=
  ∀ x, buf.u32 (512 + 512 * i + 260) * 512 % 2 ^ 32 ≤ x →
    x < buf.u32 (512 + 512 * i + 260) * 512 % 2 ^ 32 + buf.u32 (512 + 512 * i + 264) → x < len

/-- Entry `i` is inside of the buffer, and where an `int` can say it is. -/
def EntryInside (len i : Nat) : Prop := i < 2 ^ 22 ∧ 512 + 512 * i + 268 ≤ len

end Entries

section Scan

variable {buf : Mem} {len : Nat} {path : List UInt8}

theorem entryOffset_of_lt {i : Nat} (h : i < 2 ^ 22) : entryOffset i = ((512 + 512 * i : Nat) : Int) := by
  unfold entryOffset
  rw [Int.bmod_eq_of_le (by omega) (by omega)]
  omega

/-- The first entry that an `int` cannot reach is before the buffer. -/
theorem entryOffset_limit : entryOffset (2 ^ 22) < 0 := by decide

/-- An entry is read inside of the buffer, if the entries before it can be reached. -/
theorem entryInside_iff {i : Nat} (h : i ≤ 2 ^ 22) :
    ¬ (entryOffset i < 0 ∨ (len : Int) < entryOffset i + 268) ↔ EntryInside len i := by
  unfold EntryInside
  by_cases hlast : i < 2 ^ 22
  · rw [entryOffset_of_lt hlast]
    omega
  · obtain rfl : i = 2 ^ 22 := by omega
    have := entryOffset_limit
    omega

theorem passes_refl {i : Nat} : Passes buf path i i := fun n hlo hhi => absurd hlo (by omega)

theorem passes_cons {i j : Nat} (h : i < j) :
    Passes buf path i j ↔ (HasTag buf i ∧ ¬ HasPath buf path i) ∧ Passes buf path (i + 1) j := by
  constructor
  · exact fun hp => ⟨hp i le_rfl h, fun n hlo hhi => hp n (by omega) hhi⟩
  rintro ⟨hfirst, hrest⟩ n hlo hhi
  by_cases hn : n = i
  · exact hn ▸ hfirst
  · exact hrest n (by omega) hhi

/-- What the entries must be like that the scan gets to. -/
def ScanSafe (buf : Mem) (len : Nat) (path : List UInt8) (k i : Nat) : Prop :=
  ∀ j, i ≤ j → j < i + k → Passes buf path i j →
    EntryInside len j ∧ (HasTag buf j → HasPath buf path j → ContentInside buf len j)

theorem scanSafe_succ {k i : Nat} :
    ScanSafe buf len path (k + 1) i ↔
      (EntryInside len i ∧ (HasTag buf i → HasPath buf path i → ContentInside buf len i)) ∧
        (HasTag buf i ∧ ¬ HasPath buf path i → ScanSafe buf len path k (i + 1)) := by
  constructor
  · intro h
    refine ⟨h i le_rfl (by omega) passes_refl, fun hpass j hlo hhi hp => ?_⟩
    exact h j (by omega) (by omega) ((passes_cons (by omega)).2 ⟨hpass, hp⟩)
  rintro ⟨hfirst, hrest⟩ j hlo hhi hp
  by_cases hj : j = i
  · exact hj ▸ hfirst
  · obtain ⟨hpass, hp'⟩ := (passes_cons (by omega)).1 hp
    exact hrest hpass j (by omega) (by omega) hp'

theorem scanEntries_safe_iff (k i : Nat) (hi : i ≤ 2 ^ 22) :
    (scanEntries buf len path k i).Safe len ↔ ScanSafe buf len path k i := by
  induction k generalizing i with
  | zero => exact iff_of_true trivial (fun j hlo hhi => absurd hhi (by omega))
  | succ k ih =>
    rw [scanEntries, scanSafe_succ]
    by_cases hread : entryOffset i < 0 ∨ (len : Int) < entryOffset i + 268
    · rw [if_pos hread]
      exact iff_of_false (fun h => h) (fun h => ((entryInside_iff hi).2 h.1.1) hread)
    have hinside := (entryInside_iff hi).1 hread
    rw [if_neg hread, entryOffset_of_lt hinside.1, Int.toNat_natCast, and_iff_right hinside]
    by_cases htag : buf.bytes (512 + 512 * i) 4 = [69, 78, 84, 82]
    · rw [if_neg (not_not.2 htag)]
      by_cases hpath : strncmpEq buf (512 + 512 * i + 4) path 256 = true
      · rw [if_pos hpath]
        exact ⟨fun h => ⟨fun _ _ => h, fun hpass => absurd hpath hpass.2⟩, fun h => h.1 htag hpath⟩
      · rw [if_neg hpath, ih (i + 1) hinside.1]
        exact ⟨fun h => ⟨fun _ hp => absurd hp hpath, fun _ => h⟩, fun h => h.2 ⟨htag, hpath⟩⟩
    · rw [if_pos htag]
      exact iff_of_true trivial ⟨fun ht => absurd ht htag, fun hpass => absurd hpass.1 htag⟩

/-- A lookup that stays inside is the one of `get_entry_ram`. -/
theorem scanEntries_eq (k i : Nat) (hi : i ≤ 2 ^ 22) (h : scanEntries buf len path k i ≠ .outside) :
    scanEntries buf len path k i
      = match findEntry buf 512 path k i with
        | none => .notFound
        | some e => .found (e.1 * 512 % 2 ^ 32) e.2 := by
  induction k generalizing i with
  | zero => rfl
  | succ k ih =>
    rw [scanEntries] at h ⊢
    by_cases hread : entryOffset i < 0 ∨ (len : Int) < entryOffset i + 268
    · exact absurd (if_pos hread) h
    have hinside := (entryInside_iff hi).1 hread
    rw [if_neg hread, entryOffset_of_lt hinside.1, Int.toNat_natCast] at h ⊢
    rw [findEntry]
    simp only at h ⊢
    split
    · rfl
    next htag =>
      rw [if_neg htag] at h
      split
      · rfl
      next hpath =>
        rw [if_neg hpath] at h
        exact ih (i + 1) hinside.1 h

end Scan

/-! ## The whole lookup -/

section Lookup

variable (buf : Mem) (len : UInt64) (path : List UInt8)

theorem toNat_sub_block :
    (len - 512).toNat = if len.toNat < 512 then 2 ^ 64 - 512 + len.toNat else len.toNat - 512 := by
  have hlt := len.toNat_lt
  rw [UInt64.toNat_sub]
  simp only [UInt64.reduceToNat]
  split <;> omega

/-- What makes a lookup stay inside of the buffer. -/
structure LookupOk : Prop where
  /-- The header is inside. -/
  header : 16 ≤ len.toNat
  /-- A buffer of less than a block has no entries. -/
  table : headerOk buf = true → len.toNat < 512 → tblEntryNum buf = 0
  /-- If there are so many entries that the table is not checked, those that the lookup gets to are
      inside. -/
  entries : headerOk buf = true → 0xFFFF < tblEntryNum buf →
    ∀ i < tblEntryNum buf, Passes buf path 0 i → EntryInside len.toNat i
  /-- The content is inside, if the table is. -/
  content : headerOk buf = true →
    512 + 512 * tblEntryNum buf ≤ len.toNat ∨ 0xFFFF < tblEntryNum buf →
    ∀ i < tblEntryNum buf, Passes buf path 0 i → HasTag buf i → HasPath buf path i →
      ContentInside buf len.toNat i

/-- **Lookups in memory.** The lookup reads inside of the buffer only and finds content inside of it
    exactly if the header is inside, the entries that are not checked are, and the content is. -/
theorem lookupRam_safe_iff : (lookupRam buf len path).Safe len.toNat ↔ LookupOk buf len path := by
  have hsub := toNat_sub_block len
  unfold lookupRam
  by_cases hheader : len.toNat < 16
  · rw [if_pos hheader]
    exact iff_of_false (fun h => h) (fun h => absurd h.header (by omega))
  rw [if_neg hheader]
  by_cases hok : headerOk buf = false
  · rw [if_pos hok]
    have hno : ¬ headerOk buf = true := by simp [hok]
    exact iff_of_true trivial ⟨by omega, fun h => absurd h hno, fun h => absurd h hno,
      fun h => absurd h hno⟩
  rw [if_neg hok]
  rw [Bool.not_eq_false] at hok
  by_cases hcheck : tblEntryNum buf ≤ 0xFFFF ∧ (len - 512).toNat < tblEntryNum buf * 512
  · rw [if_pos hcheck]
    obtain ⟨hfew, hsmall⟩ := hcheck
    rw [hsub] at hsmall
    have hblock : ¬ len.toNat < 512 := by
      intro h
      rw [if_pos h] at hsmall
      omega
    rw [if_neg hblock] at hsmall
    exact iff_of_true trivial ⟨by omega, fun _ h => absurd h hblock, fun _ h => by omega,
      fun _ h => by omega⟩
  rw [if_neg hcheck, scanEntries_safe_iff _ 0 (by omega)]
  constructor
  · intro h
    refine ⟨by omega, fun _ hblock => ?_, fun _ _ i hi hp => ?_, fun _ _ i hi hp => ?_⟩
    · -- the first entry would be behind the end
      by_contra hnum
      have := (h 0 le_rfl (by omega) passes_refl).1.2
      omega
    · exact (h i (Nat.zero_le i) (by omega) hp).1
    · exact (h i (Nat.zero_le i) (by omega) hp).2
  · intro h i _ hi hp
    by_cases hmany : 0xFFFF < tblEntryNum buf
    · exact ⟨h.entries hok hmany i (by omega) hp, h.content hok (.inr hmany) i (by omega) hp⟩
    have hblock : ¬ len.toNat < 512 := fun hblock => by
      have := h.table hok hblock
      omega
    rw [hsub, if_neg hblock] at hcheck
    have hfits : 512 + 512 * tblEntryNum buf ≤ len.toNat := by omega
    exact ⟨⟨by omega, by omega⟩, h.content hok (.inl hfits) i (by omega) hp⟩

/-- A lookup that stays inside has the result of `get_content_ram`. -/
theorem lookupRam_eq (h : lookupRam buf len path ≠ .outside) :
    getContentRam buf len.toNat path
      = match lookupRam buf len path with
        | .found loadAddr contentSize => some (loadAddr, contentSize)
        | _ => none := by
  have hlt := len.toNat_lt
  have hget : getContentRam buf len.toNat path = (getEntryRam buf buf ((buf 8).toNat * 512)
      ((len.toNat + 2 ^ 64 - (buf 8).toNat * 512) % 2 ^ 64) path).map
        (fun e => (e.1 * 512 % 2 ^ 32, e.2)) := rfl
  rw [hget]
  unfold lookupRam at h ⊢
  unfold getEntryRam
  by_cases hheader : len.toNat < 16
  · exact absurd (if_pos hheader) h
  rw [if_neg hheader] at h ⊢
  by_cases hok : headerOk buf = false
  · rw [if_pos hok, if_pos hok]
    rfl
  rw [if_neg hok] at h ⊢
  rw [if_neg hok]
  have hone : (buf 8).toNat * 512 = 512 := by
    have hbyte : buf 8 = 1 := by
      simp only [headerOk, decide_eq_false_iff_not, not_not] at hok
      exact hok.2.2.1
    rw [hbyte]
    rfl
  have hsize : (len.toNat + 2 ^ 64 - 512) % 2 ^ 64 = (len - 512).toNat := by
    rw [toNat_sub_block]
    split <;> omega
  rw [hone, hsize]
  by_cases hcheck : tblEntryNum buf ≤ 0xFFFF ∧ (len - 512).toNat < tblEntryNum buf * 512
  · rw [if_pos hcheck, if_pos hcheck]
    rfl
  rw [if_neg hcheck] at h ⊢
  rw [if_neg hcheck, scanEntries_eq _ 0 (by omega) h]
  cases findEntry buf 512 path (tblEntryNum buf) 0 with
  | none => rfl
  | some e => rfl

end Lookup

/-- An image with one entry, for the path `a`, whose content is one byte at block `offset`. -/
def oneEntry (offset : Nat) : Mem :=
  (Mem.ofList (encodeHeader 1)).store 512 (encodeEntry [97] offset 1)

/-- A buffer with the header alone is read beyond its end; and a content that begins behind the end is
    found. -/
theorem lookupRam_unsafe :
    lookupRam (oneEntry 2) 16 [97] = .outside ∧ lookupRam (oneEntry 100) 1024 [97] = .found 51200 1 ∧
      ¬ (lookupRam (oneEntry 2) 16 [97]).Safe 16 ∧
      ¬ (lookupRam (oneEntry 100) 1024 [97]).Safe 1024 := by
  have hheader : lookupRam (oneEntry 2) 16 [97] = .outside := by decide +kernel
  have hcontent : lookupRam (oneEntry 100) 1024 [97] = .found 51200 1 := by decide +kernel
  refine ⟨hheader, hcontent, ?_, ?_⟩
  · rw [hheader]
    exact fun h => h
  · rw [hcontent]
    intro h
    exact absurd (h 51200 (by decide) (by decide)) (by decide)

end Resource
