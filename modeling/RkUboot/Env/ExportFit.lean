import RkUboot.Env.ImportExport

set_option autoImplicit false

/-! # The size of an export (`lib/hashtable.c`)

`hexport_r` goes over the table twice. The first pass picks the entries and counts the room for them;
the size of the buffer is compared with the count, or is the count. The second pass writes.

For each entry two characters more are counted than are needed. With a newline as the separator the
backslashes are counted as well, and the text always fits. With NUL they are not counted but written
all the same, so a value with many backslashes runs over the end of the buffer. -/

namespace HashTable

/-! ## Which entries are exported -/

/-- `H_HIDE_DOT` -/
def hHideDot : Nat := 8

/-- `H_MATCH_KEY` -/
def hMatchKey : Nat := 16

/-- `H_MATCH_DATA` -/
def hMatchData : Nat := 32

/-- `H_MATCH_IDENT` -/
def hMatchIdent : Nat := 64

/-- `H_MATCH_SUBSTR` -/
def hMatchSubstr : Nat := 128

/-- `H_MATCH_REGEX` -/
def hMatchRegex : Nat := 256

/-- `H_MATCH_METHOD` -/
def hMatchMethod : Nat := hMatchIdent ||| hMatchSubstr ||| hMatchRegex

/-- `match_string`; `regex` is the compiled pattern. -/
def matchString (flag : Nat) (str pat : Str) (regex : Str → Bool) : Bool :=
  if flag &&& hMatchMethod = hMatchIdent then decide (str = pat)
  else if flag &&& hMatchMethod = hMatchSubstr then decide (pat <:+: str)
  else if flag &&& hMatchMethod = hMatchRegex then regex str
  else false

/-- `match_entry`. `compile` is `slre_compile` and what a match with its result gives; without
    `CONFIG_REGEX` it always succeeds, and nothing matches. -/
def matchEntry (compile : Str → Option (Str → Bool)) (ep : Str × Str) (flag : Nat) : List Str → Bool
  | [] => false
  | arg :: argv =>
    match compile arg with
    | none => false
    | some regex =>
      if flag &&& hMatchKey ≠ 0 ∧ matchString flag ep.1 arg regex = true then true
      else if flag &&& hMatchData ≠ 0 ∧ matchString flag ep.2 arg regex = true then true
      else matchEntry compile ep flag argv

/-- The entries that the first pass puts in `list`. -/
def exported (compile : Str → Option (Str → Bool)) (flag : Nat) (argv : List Str) (htab : Htab) :
    List (Str × Str) :=
  (entries htab).filter fun ep =>
    !(decide (0 < argv.length) && !matchEntry compile ep flag argv) &&
      !(decide (flag &&& hHideDot ≠ 0) && ep.1.head? == some 46)

/-! ## The two passes -/

/-- `totlen` of the first pass. -/
def totlen (sep : UInt8) (list : List (Str × Str)) : Nat :=
  (list.map fun p => p.1.length + 2 + dataRoom sep p.2 + 2).sum

/-- The buffer of the second pass, and `p` in it. -/
structure Writer where
  res : Mem
  p : Nat

/-- `*p++ = c` -/
def Writer.put (w : Writer) (c : UInt8) : Writer := ⟨w.res.set8 w.p c, w.p + 1⟩

/-- The loop over a value. -/
def writeData (sep : UInt8) (w : Writer) (data : Str) : Writer :=
  data.foldl (fun w c => (if c = sep ∨ c = 92 then w.put 92 else w).put c) w

/-- One round of the second pass. -/
def writeEntry (sep : UInt8) (w : Writer) (ep : Str × Str) : Writer :=
  (writeData sep ((ep.1.foldl Writer.put w).put 61) ep.2).put sep

/-- What `hexport_r` leaves: the size that it checked or allocated, the buffer, and how many bytes
    were written to it. -/
structure Export where
  size : Nat
  res : Mem
  written : Nat

/-- Model of `hexport_r` with a filter; `alloc` is false if there is no buffer and `calloc` fails. -/
def hexportFiltered (compile : Str → Option (Str → Bool)) (htab : Htab) (sep : UInt8) (flag : Nat)
    (alloc : Bool) (size : Nat) (argv : List Str) : Option Export :=
  let list := exported compile flag argv htab
  if size ≠ 0 ∧ size < totlen sep list + 1 then none
  else
    let size := if size = 0 then totlen sep list + 1 else size
    if alloc = false then none
    else
      let w := (list.mergeSort fun p q => strcmpLe p.1 q.1).foldl (writeEntry sep) ⟨Mem.zero, 0⟩
      -- `*p = '\0'`
      some ⟨size, (w.put 0).res, (w.put 0).p⟩

/-! ## What the second pass writes -/

section Write

variable (sep : UInt8) (w : Writer)

theorem foldl_put (bs : Str) : bs.foldl Writer.put w = ⟨w.res.store w.p bs, w.p + bs.length⟩ := by
  induction bs generalizing w with
  | nil => rw [Mem.store_nil]; rfl
  | cons c bs ih =>
    rw [List.foldl_cons, ih, List.length_cons, ← Mem.store_cons, ← Nat.add_assoc,
      Nat.add_right_comm]
    rfl

theorem writeData_eq (data : Str) : writeData sep w data = (escape sep data).foldl Writer.put w := by
  unfold writeData escape
  rw [List.foldl_flatMap]
  congr 1
  funext w c
  split <;> rfl

theorem writeEntry_eq (ep : Str × Str) : writeEntry sep w ep = (entryText sep ep).foldl Writer.put w := by
  unfold writeEntry entryText
  rw [writeData_eq]
  simp only [List.foldl_append, List.foldl_cons, List.foldl_nil]

theorem foldl_writeEntry (list : List (Str × Str)) :
    list.foldl (writeEntry sep) w = (exportText sep list).foldl Writer.put w := by
  unfold exportText
  rw [List.foldl_flatMap]
  congr 1
  funext w ep
  exact writeEntry_eq sep w ep

end Write

/-! ## Counting -/

section Count

variable (sep : UInt8)

/-- How many characters of a value get a backslash. (There is no NUL in a value.) -/
def escapes (data : Str) : Nat := data.countP fun c => decide (c = sep ∨ c = 92)

theorem length_escape (data : Str) : (escape sep data).length = data.length + escapes sep data := by
  induction data with
  | nil => rfl
  | cons c data ih =>
    have hcons : escapes sep (c :: data) =
        escapes sep data + if decide (c = sep ∨ c = 92) = true then 1 else 0 := List.countP_cons
    rw [escape_cons, List.length_append, ih, hcons, List.length_cons]
    by_cases h : c = sep ∨ c = 92
    · rw [if_pos h, if_pos (decide_eq_true h)]
      simp only [List.length_cons, List.length_nil]
      omega
    · rw [if_neg h, if_neg (by rw [decide_eq_false h]; decide)]
      simp only [List.length_cons, List.length_nil]
      omega

theorem dataRoom_eq (data : Str) :
    dataRoom sep data = data.length + if sep = 0 then 0 else escapes sep data := by
  unfold dataRoom
  split
  · rfl
  · rw [← length_escape, escape, List.length_flatMap]
    congr 1
    apply List.map_congr_left
    intro c _
    split <;> rfl

/-- The characters that the values of a list get. -/
def listEscapes (list : List (Str × Str)) : Nat := (list.map fun p => escapes sep p.2).sum

/-- Two characters for each entry are counted and not written; with NUL as the separator the
    backslashes are written and not counted. -/
theorem totlen_add (list : List (Str × Str)) :
    totlen sep list + (if sep = 0 then listEscapes sep list else 0) =
      (exportText sep list).length + 2 * list.length := by
  induction list with
  | nil =>
    rw [show listEscapes sep [] = 0 from rfl, ite_self]
    rfl
  | cons p list ih =>
    have hlen : (entryText sep p).length = p.1.length + p.2.length + escapes sep p.2 + 2 := by
      simp only [entryText, List.length_append, List.length_singleton, length_escape]
      omega
    have htext : (exportText sep (p :: list)).length =
        (entryText sep p).length + (exportText sep list).length := by
      rw [exportText, List.flatMap_cons, List.length_append]
      rfl
    have htot : totlen sep (p :: list) =
        p.1.length + 2 + dataRoom sep p.2 + 2 + totlen sep list := by
      rfl
    have hesc : listEscapes sep (p :: list) = escapes sep p.2 + listEscapes sep list := by
      rfl
    rw [htot, htext, hlen, hesc, dataRoom_eq, List.length_cons]
    split at ih
    · next h0 =>
      rw [if_pos h0, if_pos h0]
      omega
    · next h0 =>
      rw [if_neg h0, if_neg h0]
      omega

end Count

/-! ## The room that is left -/

section Fit

variable {compile : Str → Option (Str → Bool)} {htab : Htab} {sep : UInt8} {flag size : Nat}
  {alloc : Bool} {argv : List Str} {r : Export}

/-- The text is written from the start of the buffer on, and a terminator behind it. -/
theorem hexportFiltered_spec (h : hexportFiltered compile htab sep flag alloc size argv = some r) :
    (size = 0 ∨ totlen sep (exported compile flag argv htab) + 1 ≤ size) ∧
    r.size = (if size = 0 then totlen sep (exported compile flag argv htab) + 1 else size) ∧
    r.written = (exportText sep (exported compile flag argv htab)).length + 1 ∧
    r.res = Mem.zero.store 0 (exportText sep
      ((exported compile flag argv htab).mergeSort fun p q => strcmpLe p.1 q.1) ++ [0]) := by
  unfold hexportFiltered at h
  dsimp only at h
  split at h
  · cases h
  next hsize =>
  split at h
  · cases h
  obtain rfl := Option.some.inj h
  refine ⟨by omega, rfl, ?_, ?_⟩
  · rw [foldl_writeEntry, foldl_put]
    have hperm : (exportText sep
        ((exported compile flag argv htab).mergeSort fun p q => strcmpLe p.1 q.1)).length =
        (exportText sep (exported compile flag argv htab)).length :=
      ((List.mergeSort_perm _ _).flatMap_right (entryText sep)).length_eq
    simp only [Writer.put, hperm, Nat.zero_add]
  · rw [foldl_writeEntry, show ∀ (w : Writer) (bs : Str), (bs.foldl Writer.put w).put 0 =
      (bs ++ [0]).foldl Writer.put w from fun w bs => by rw [List.foldl_append]; rfl, foldl_put]

/-- Without a filter it is the export of the whole table. -/
theorem hexportFiltered_all (compile : Str → Option (Str → Bool)) (htab : Htab) (sep : UInt8)
    (size : Nat) :
    (hexportFiltered compile htab sep 0 true size []).map (fun r => (r.size, r.res)) =
      hexportR htab sep size := by
  have hlist : exported compile 0 [] htab = entries htab := by
    unfold exported
    rw [List.filter_eq_self]
    intro ep _
    simp
  have hall : hexportR htab sep size =
      if size ≠ 0 ∧ size < totlen sep (entries htab) + 1 then none
      else some (if size = 0 then totlen sep (entries htab) + 1 else size,
        Mem.zero.store 0 (exportText sep (sorted htab) ++ [0])) := rfl
  rw [hall]
  cases hrun : hexportFiltered compile htab sep 0 true size [] with
  | none =>
    unfold hexportFiltered at hrun
    rw [hlist] at hrun
    dsimp only at hrun
    split at hrun
    · next hsmall => rw [if_pos hsmall]; rfl
    · cases hrun
  | some r =>
    obtain ⟨hfits, hsize, -, hres⟩ := hexportFiltered_spec hrun
    rw [hlist] at hfits hsize hres
    rw [if_neg (by omega), Option.map_some, hsize, hres]
    rfl

/-- **What is written fits** in the size that was checked or allocated if and only if the separator
    is a newline, or the values that are exported have at most two backslashes for each entry, and as
    many more as the caller's buffer is larger than the room that was counted. -/
theorem hexportFiltered_fits_iff (hsep : sep = 0 ∨ sep = 10)
    (h : hexportFiltered compile htab sep flag alloc size argv = some r) :
    r.written ≤ r.size ↔
      sep = 10 ∨ listEscapes sep (exported compile flag argv htab) ≤
        2 * (exported compile flag argv htab).length +
          (size - (totlen sep (exported compile flag argv htab) + 1)) := by
  obtain ⟨hfits, hsize, hwritten, -⟩ := hexportFiltered_spec h
  have hcount := totlen_add sep (exported compile flag argv htab)
  rw [hsize, hwritten]
  rcases hsep with rfl | rfl
  · rw [if_pos rfl] at hcount
    have hne : ¬ (0 : UInt8) = 10 := by decide
    split <;> simp only [hne, false_or] <;> omega
  · rw [if_neg (by decide)] at hcount
    split <;> simp only [true_or, iff_true] <;> omega

/-- A build without `CONFIG_REGEX`. -/
def noRegex : Str → Option (Str → Bool) := fun _ => some fun _ => false

/-- A table with one entry, `a`. -/
def oneEntry (data : Str) : Htab := (hsearchR [97] (.enter data) fiveSlots).2.2

/-- The separator NUL: a value of two backslashes fits. -/
theorem hexportFiltered_fits_two :
    ∃ r, hexportFiltered noRegex (oneEntry [92, 92]) 0 0 true 0 [] = some r ∧ r.written ≤ r.size := by
  obtain ⟨r, hr⟩ : ∃ r, hexportFiltered noRegex (oneEntry [92, 92]) 0 0 true 0 [] = some r := ⟨_, rfl⟩
  refine ⟨r, hr, (hexportFiltered_fits_iff (.inl rfl) hr).mpr (.inr ?_)⟩
  decide +kernel

/-- A value of three backslashes: nine bytes are allocated, and ten are written. -/
theorem hexportFiltered_overrun :
    ∃ r, hexportFiltered noRegex (oneEntry [92, 92, 92]) 0 0 true 0 [] = some r ∧
      r.size = 9 ∧ r.written = 10 := by
  obtain ⟨r, hr⟩ : ∃ r, hexportFiltered noRegex (oneEntry [92, 92, 92]) 0 0 true 0 [] = some r :=
    ⟨_, rfl⟩
  obtain ⟨-, hsize, hwritten, -⟩ := hexportFiltered_spec hr
  refine ⟨r, hr, ?_, ?_⟩
  · rw [hsize]
    decide +kernel
  · rw [hwritten]
    decide +kernel

end Fit

end HashTable
