import RkUboot.Attestation.Key

set_option autoImplicit false

/-! # What the parser takes for a certificate chain

`copy_cert_chain_from_buf` reads at most `ATAP_CERT_CHAIN_ENTRIES_MAX` entries and compares what is
left of the chain's size with 0 behind each of them. When the last entry it has room for is read and
some of the size is still left, it leaves the loop with `retval` as it was at the start: the chain is
taken, and the cursor is before its end. -/

namespace Attestation

/-! ## Entries -/

/-- The buffer has these entries from `a` on, none of them too long. -/
structure EntriesAt (buf : Mem) (a : Nat) (entries : List (List UInt8)) : Prop where
  limit : ∀ e ∈ entries, e.length ≤ blobLenMax
  has : buf.Has a (entries.flatMap encodeBlob)

/-- What the entries take in the buffer. -/
def chainSize (entries : List (List UInt8)) : Nat := (entries.flatMap encodeBlob).length

/-- At most `k` entries of this total length. -/
def Exact (buf : Mem) (a k size : Nat) : Prop :=
  ∃ entries, EntriesAt buf a entries ∧ entries.length ≤ k ∧ chainSize entries = size

/-- Exactly `k` entries, and something of the size is left behind them. -/
def Short (buf : Mem) (a k size : Nat) : Prop :=
  ∃ entries, EntriesAt buf a entries ∧ entries.length = k ∧ chainSize entries < size

section Entries

variable {buf : Mem} {a : Nat} {e : List UInt8} {entries : List (List UInt8)}

theorem entriesAt_nil : EntriesAt buf a [] := ⟨fun _ he => absurd he List.not_mem_nil, rfl⟩

theorem entriesAt_cons :
    EntriesAt buf a (e :: entries) ↔
      e.length ≤ blobLenMax ∧ buf.Has a (encodeBlob e) ∧ EntriesAt buf (a + (4 + e.length)) entries := by
  constructor
  · intro h
    have hhas := h.has
    rw [List.flatMap_cons, Mem.has_append, length_encodeBlob] at hhas
    exact ⟨h.limit e (.head _), hhas.1, fun f hf => h.limit f (List.mem_cons_of_mem e hf),
      hhas.2⟩
  · rintro ⟨hlen, hfirst, hrest⟩
    refine ⟨fun f hf => ?_, ?_⟩
    · rcases List.mem_cons.1 hf with rfl | hf
      · exact hlen
      · exact hrest.limit f hf
    · rw [List.flatMap_cons, Mem.has_append, length_encodeBlob]
      exact ⟨hfirst, hrest.has⟩

theorem chainSize_nil : chainSize [] = 0 := rfl

theorem chainSize_cons : chainSize (e :: entries) = 4 + e.length + chainSize entries := by
  rw [chainSize, List.flatMap_cons, List.length_append, length_encodeBlob, chainSize]

/-- The first entry is given by its length. -/
theorem EntriesAt.head (h : EntriesAt buf a (e :: entries)) :
    e.length = buf.u32 a ∧ e = buf.bytes (a + 4) (buf.u32 a) := by
  obtain ⟨hlen, hfirst, -⟩ := entriesAt_cons.1 h
  rw [encodeBlob, Mem.has_append, Mem.length_le32] at hfirst
  have hmax : blobLenMax = 2048 := rfl
  have hsize := hfirst.1.u32_of_lt (by omega)
  rw [hsize]
  exact ⟨rfl, hfirst.2.symm⟩

/-- What stands at `a` is an entry, if it is not too long. -/
theorem has_encodeBlob (buf : Mem) (a : Nat) :
    buf.Has a (encodeBlob (buf.bytes (a + 4) (buf.u32 a))) := by
  have hlen := Mem.length_bytes (m := buf) (a := a + 4) (buf.u32 a)
  rw [encodeBlob, Mem.has_append, Mem.length_le32, hlen]
  refine ⟨Mem.has_le32_u32 buf a, ?_⟩
  rw [Mem.Has, hlen]

/-- Chains that are not empty begin with the entry at `a`. -/
theorem exists_entriesAt_iff {Q : Nat → Nat → Prop} {size : Nat} (Q' : Nat → Nat → Prop)
    (hempty : ¬ Q 0 0)
    (hstep : ∀ n c, Q (n + 1) (4 + buf.u32 a + c) ↔ 4 + buf.u32 a ≤ size ∧ Q' n c) :
    (∃ entries, EntriesAt buf a entries ∧ Q entries.length (chainSize entries)) ↔
      buf.u32 a ≤ blobLenMax ∧ 4 + buf.u32 a ≤ size ∧
        ∃ entries, EntriesAt buf (a + (4 + buf.u32 a)) entries ∧
          Q' entries.length (chainSize entries) := by
  constructor
  · rintro ⟨entries, hat, hQ⟩
    cases entries with
    | nil => exact absurd hQ hempty
    | cons e entries =>
      obtain ⟨hlimit, -, hrest⟩ := entriesAt_cons.1 hat
      rw [List.length_cons, chainSize_cons, hat.head.1, hstep] at hQ
      rw [hat.head.1] at hlimit hrest
      exact ⟨hlimit, hQ.1, entries, hrest, hQ.2⟩
  · rintro ⟨hlimit, hle, entries, hrest, hQ⟩
    have hlen := Mem.length_bytes (m := buf) (a := a + 4) (buf.u32 a)
    refine ⟨buf.bytes (a + 4) (buf.u32 a) :: entries,
      entriesAt_cons.2 ⟨?_, has_encodeBlob buf a, ?_⟩, ?_⟩
    · rwa [hlen]
    · rwa [hlen]
    · rw [List.length_cons, chainSize_cons, hlen]
      exact (hstep _ _).2 ⟨hle, hQ⟩

theorem exact_succ_iff {k size : Nat} (hpos : 0 < size) :
    Exact buf a (k + 1) size ↔ buf.u32 a ≤ blobLenMax ∧ 4 + buf.u32 a ≤ size ∧
      Exact buf (a + (4 + buf.u32 a)) k (size - (4 + buf.u32 a)) :=
  exists_entriesAt_iff (Q := (· ≤ k + 1 ∧ · = size)) (· ≤ k ∧ · = size - (4 + buf.u32 a)) (by omega)
    (fun n c => by omega)

theorem short_succ_iff {k size : Nat} :
    Short buf a (k + 1) size ↔ buf.u32 a ≤ blobLenMax ∧ 4 + buf.u32 a ≤ size ∧
      Short buf (a + (4 + buf.u32 a)) k (size - (4 + buf.u32 a)) :=
  exists_entriesAt_iff (Q := (· = k + 1 ∧ · < size)) (· = k ∧ · < size - (4 + buf.u32 a)) (by omega)
    (fun n c => by omega)

/-- Where the entries begin and end determines them. -/
theorem EntriesAt.unique {entries' : List (List UInt8)} (h : EntriesAt buf a entries)
    (h' : EntriesAt buf a entries') (hsize : chainSize entries = chainSize entries') :
    entries = entries' := by
  induction entries generalizing a entries' with
  | nil =>
    cases entries' with
    | nil => rfl
    | cons e' entries' =>
      rw [chainSize_nil, chainSize_cons] at hsize
      omega
  | cons e entries ih =>
    cases entries' with
    | nil =>
      rw [chainSize_nil, chainSize_cons] at hsize
      omega
    | cons e' entries' =>
      obtain rfl : e = e' := h.head.2.trans h'.head.2.symm
      rw [chainSize_cons, chainSize_cons] at hsize
      rw [ih (entriesAt_cons.1 h).2.2 (entriesAt_cons.1 h').2.2 (by omega)]

theorem exact_zero {k : Nat} : Exact buf a k 0 := ⟨[], entriesAt_nil, Nat.zero_le k, rfl⟩

theorem not_short_zero {k : Nat} : ¬ Short buf a k 0 := by
  rintro ⟨_, _, _, hlt⟩
  cases hlt

end Entries

/-! ## The loop -/

section Loop

variable {buf : Mem} {s : Parser}

/-- One blob, whatever the buffer holds. -/
theorem copyBlobFromBuf_spec (buf : Mem) (hm : s.mallocs = []) :
    (blobLenMax < buf.u32 s.cursor ∧ (copyBlobFromBuf buf s).1 = none) ∨
      buf.u32 s.cursor ≤ blobLenMax ∧
        ∃ s', copyBlobFromBuf buf s = (some (buf.bytes (s.cursor + 4) (buf.u32 s.cursor)), s') ∧
          s.After (4 + buf.u32 s.cursor) s' := by
  have hlen := Mem.length_bytes (m := buf) (a := s.cursor + 4) (buf.u32 s.cursor)
  by_cases hmax : blobLenMax < buf.u32 s.cursor
  · refine .inl ⟨hmax, ?_⟩
    have hread : (copyUint32FromBuf buf s).1 = buf.u32 s.cursor := rfl
    simp only [copyBlobFromBuf]
    rw [if_pos (hread ▸ hmax)]
  · have hread := copyBlobFromBuf_encode (has_encodeBlob buf s.cursor) (by rw [hlen]; omega) hm
    rw [hlen] at hread
    exact .inr ⟨by omega, hread⟩

/-- What the loop makes of a size that is not 0: the entries if their lengths add up, some entries as
    well if there is no room for all of them, and no chain otherwise. -/
theorem chainLoop_spec (buf : Mem) (k size : Nat) (acc : List (List UInt8)) (hpos : 0 < size)
    (hm : s.mallocs = []) :
    (∃ entries s', chainLoop buf k size acc s = (some (acc ++ entries), s') ∧ s.After size s' ∧
        (EntriesAt buf s.cursor entries ∧ entries.length ≤ k ∧ chainSize entries = size) ∧
        ¬ Short buf s.cursor k size) ∨
      ((chainLoop buf k size acc s).1.isSome ∧ ¬ Exact buf s.cursor k size ∧
        Short buf s.cursor k size) ∨
      (chainLoop buf k size acc s).1 = none ∧ ¬ Exact buf s.cursor k size ∧
        ¬ Short buf s.cursor k size := by
  induction k generalizing size acc s with
  | zero =>
    refine .inr (.inl ⟨rfl, ?_, [], entriesAt_nil, rfl, hpos⟩)
    rintro ⟨entries, -, hlen, hsize⟩
    rw [List.eq_nil_of_length_eq_zero (Nat.le_zero.1 hlen)] at hsize
    exact absurd hsize hpos.ne
  | succ k ih =>
    rw [exact_succ_iff hpos, short_succ_iff, chainLoop]
    obtain ⟨hmax, hread⟩ | ⟨hmax, s', hread, hafter⟩ := copyBlobFromBuf_spec buf hm
    · -- the entry is too long
      have hno : ¬ buf.u32 s.cursor ≤ blobLenMax := by omega
      refine .inr (.inr ⟨?_, fun h => hno h.1, fun h => hno h.1⟩)
      generalize copyBlobFromBuf buf s = r at hread
      obtain ⟨data, s'⟩ := r
      subst hread
      rfl
    have hlen := Mem.length_bytes (m := buf) (a := s.cursor + 4) (buf.u32 s.cursor)
    rw [hread]
    simp only [hlen]
    by_cases hend : size ≤ 4 + buf.u32 s.cursor
    · rw [if_pos (by omega)]
      by_cases heq : size = 4 + buf.u32 s.cursor
      · -- the last entry
        rw [if_pos (by omega)]
        refine .inl ⟨_, s', rfl, heq ▸ hafter, ⟨?_, by simp, ?_⟩, ?_⟩
        · rw [entriesAt_cons, hlen]
          exact ⟨hmax, has_encodeBlob buf s.cursor, entriesAt_nil⟩
        · rw [chainSize_cons, hlen, heq]
          rfl
        · rintro ⟨-, -, hshort⟩
          rw [heq, Nat.sub_self] at hshort
          exact not_short_zero hshort
      · -- it goes beyond the size
        rw [if_neg (by omega)]
        exact .inr (.inr ⟨rfl, fun h => by omega, fun h => by omega⟩)
    · rw [if_neg (by omega)]
      have hsub : (size : Int) - (4 + (buf.u32 s.cursor : Nat))
          = ((size - (4 + buf.u32 s.cursor) : Nat) : Int) := by omega
      have hle : 4 + buf.u32 s.cursor ≤ size := by omega
      rw [hsub, ← hafter.1, and_iff_right hmax, and_iff_right hle, and_iff_right hmax,
        and_iff_right hle]
      have hrest := ih (size - (4 + buf.u32 s.cursor))
        (acc ++ [buf.bytes (s.cursor + 4) (buf.u32 s.cursor)]) (by omega) hafter.2
      rcases hrest with ⟨entries, s'', hloop, hafter', ⟨hat, hcount, htotal⟩, hshort⟩ | hrest
      · refine .inl ⟨buf.bytes (s.cursor + 4) (buf.u32 s.cursor) :: entries, s'', ?_, ⟨?_, hafter'.2⟩,
          ⟨?_, ?_, ?_⟩, hshort⟩
        · rw [hloop, List.append_assoc, List.singleton_append]
        · rw [hafter'.1, hafter.1]
          omega
        · rw [entriesAt_cons, hlen, ← hafter.1]
          exact ⟨hmax, has_encodeBlob buf s.cursor, hat⟩
        · exact Nat.succ_le_succ hcount
        · rw [chainSize_cons, hlen, htotal]
          omega
      · exact .inr hrest

/-- The size of the chain decides whether there is anything to loop over. -/
theorem copyCertChainFromBuf_eq (buf : Mem) (cursor : Nat) (reads : List (Nat × Nat)) :
    let s : Parser := ⟨cursor + 4, (cursor, 4) :: reads, []⟩
    copyCertChainFromBuf buf ⟨cursor, reads, []⟩
      = if certChainLenMax < buf.u32 cursor then (none, s)
        else if buf.u32 cursor = 0 then (some [], s)
        else chainLoop buf certChainEntriesMax (buf.u32 cursor) [] s := rfl

/-- **Chains that are taken.** The parser takes exactly the chains of at most eight entries whose
    lengths add up to their size, and goes on behind them, unless the size is larger than the first
    eight entries are. -/
theorem copyCertChainFromBuf_iff (buf : Mem) (cursor : Nat) (reads : List (Nat × Nat)) :
    let size := buf.u32 cursor
    let r := copyCertChainFromBuf buf ⟨cursor, reads, []⟩
    ((r.1.isSome ↔ size ≤ certChainLenMax ∧ Exact buf (cursor + 4) certChainEntriesMax size) ∧
        ∀ entries, r.1 = some entries → r.2.cursor = cursor + (4 + size) ∧
          EntriesAt buf (cursor + 4) entries ∧ entries.length ≤ certChainEntriesMax ∧
          chainSize entries = size) ↔
      ¬ (size ≤ certChainLenMax ∧ Short buf (cursor + 4) certChainEntriesMax size) := by
  intro size r
  have hr : r = _ := copyCertChainFromBuf_eq buf cursor reads
  by_cases hmax : certChainLenMax < size
  · rw [hr, if_pos hmax]
    exact iff_of_true ⟨iff_of_false nofun (by omega), fun _ h => nomatch h⟩ (by omega)
  have hle : size ≤ certChainLenMax := by omega
  rw [if_neg hmax] at hr
  rw [and_iff_right hle, and_iff_right hle]
  by_cases hzero : size = 0
  · rw [if_pos hzero] at hr
    rw [hr, hzero]
    refine iff_of_true ⟨iff_of_true rfl exact_zero, ?_⟩ not_short_zero
    rintro entries heq
    obtain rfl := Option.some.inj heq
    exact ⟨rfl, entriesAt_nil, Nat.zero_le _, rfl⟩
  · rw [if_neg hzero] at hr
    have hspec := chainLoop_spec (s := ⟨cursor + 4, (cursor, 4) :: reads, []⟩) buf
      certChainEntriesMax size [] (by omega) rfl
    rw [← hr] at hspec
    obtain ⟨entries, s', hloop, hafter, hentries, hshort⟩ | ⟨hsome, hexact, hshort⟩ |
      ⟨hnone, hexact, hshort⟩ := hspec
    · rw [hloop]
      refine iff_of_true ⟨iff_of_true rfl ⟨entries, hentries⟩, ?_⟩ hshort
      rintro entries' heq
      obtain rfl := Option.some.inj heq
      exact ⟨by rw [hafter.1, Nat.add_assoc], hentries⟩
    · exact iff_of_false (fun h => hexact (h.1.1 hsome)) (fun h => h hshort)
    · rw [hnone]
      exact iff_of_true ⟨iff_of_false nofun hexact, fun _ h => nomatch h⟩ hshort

/-- Eight empty entries and four bytes more. -/
def nineWords : Mem := Mem.ofList (Mem.le32 36)

/-- The size says 36 bytes, but the eight entries are 32; they are taken, and the cursor is left four
    bytes before the end. -/
theorem copyCertChainFromBuf_ninth :
    nineWords.u32 0 = 36 ∧
      (copyCertChainFromBuf nineWords ⟨0, [], []⟩).1 = some (List.replicate 8 []) ∧
      (copyCertChainFromBuf nineWords ⟨0, [], []⟩).2.cursor = 36 ∧
      chainSize (List.replicate 8 []) = 32 := by
  decide +kernel

end Loop

end Attestation
