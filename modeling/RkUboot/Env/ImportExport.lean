import RkUboot.Env.HashTable
import RkUboot.Lib.Bytes

set_option autoImplicit false

/-! # Export and import of the environment (`lib/hashtable.c`)

`hexport_r` writes the entries, sorted by key, as `key=value` with a separator behind each of them,
and a terminator at the end. In a value the separator and the backslash get a backslash in front.
`himport_r` reads such a text in place: it ends each name with a zero and moves the characters of
each value over the backslashes. No filter is given to the export; the import has no callbacks. -/

namespace HashTable

open OpenAddress

/-! ## Export -/

/-- The entries, in the order of the slots. (`used` is positive: the table is far below 2^31 slots, for
    the list of entries is on the stack.) -/
def entries (htab : Htab) : List (Str × Str) :=
  (List.range' 1 htab.size).filterMap fun i =>
    match htab.table i with
    | .live key e => some (key, e.data)
    | _ => none

/-- `strcmp(a, b) <= 0`; the difference of two bytes is a `signed char`. -/
def strcmpLe : Str → Str → Bool
  | [], [] => true
  | [], b :: _ => decide (128 ≤ 0 - b)
  | a :: _, [] => decide (128 ≤ a)
  | a :: as, b :: bs => if a = b then strcmpLe as bs else decide (128 ≤ a - b)

/-- A value as it is written. -/
def escape (sep : UInt8) (data : Str) : Str :=
  data.flatMap fun c => if c = sep ∨ c = 92 then [92, c] else [c]

/-- The room that the first pass counts for a value. -/
def dataRoom (sep : UInt8) (data : Str) : Nat :=
  if sep = 0 then data.length
  else (data.map fun c => if c = sep ∨ c = 92 then 2 else 1).sum

/-- An entry as it is written. -/
def entryText (sep : UInt8) (p : Str × Str) : Str := p.1 ++ [61] ++ escape sep p.2 ++ [sep]

def exportText (sep : UInt8) (ps : List (Str × Str)) : Str := ps.flatMap (entryText sep)

/-- The entries sorted by their keys. -/
def sorted (htab : Htab) : List (Str × Str) := (entries htab).mergeSort fun p q => strcmpLe p.1 q.1

/-- Model of `hexport_r` without a filter: the size it returns, and the buffer. -/
def hexportR (htab : Htab) (sep : UInt8) (size : Nat) : Option (Nat × Mem) :=
  let totlen := ((entries htab).map fun p => p.1.length + 2 + dataRoom sep p.2 + 2).sum
  if size ≠ 0 ∧ size < totlen + 1 then none
  else some (if size = 0 then totlen + 1 else size, Mem.zero.store 0 (exportText sep (sorted htab) ++ [0]))

/-! ## Import -/

def isblank (c : UInt8) : Bool := c == 32 || c == 9

/-- The first address from `a` on at which `stop` holds, looked for in `n` bytes. -/
def scan (m : Mem) (stop : UInt8 → Bool) : Nat → Nat → Nat
  | 0, a => a
  | n + 1, a => if stop (m a) then a else scan m stop n (a + 1)

/-- The loop that reads a value at `dp` and writes it at `sp`. -/
def parseValue (sep : UInt8) : Nat → Mem → Nat → Nat → Mem × Nat × Nat
  | 0, m, dp, sp => (m, dp, sp)
  | n + 1, m, dp, sp =>
    if m dp = 0 ∨ m dp = sep then (m, dp, sp)
    else
      let dp := if m dp = 92 ∧ m (dp + 1) ≠ 0 then dp + 1 else dp
      parseValue sep n (m.set8 sp (m dp)) (dp + 1) (sp + 1)

/-- `drop_var_from_set` -/
def dropVarFromSet (name : Str) (vars : List (Option Str)) : Bool × List (Option Str) :=
  if vars = [] then (true, [])
  else (vars.contains (some name), vars.map fun v => if v = some name then none else v)

/-- What a round of the import works on. -/
structure ImportState where
  data : Mem
  dp : Nat
  htab : Htab
  vars : List (Option Str)

/-- A name without a value. -/
def importDelete (n name dp : Nat) (s : ImportState) : ImportState :=
  let data := if s.data dp = 61 then s.data.set8 dp 0 else s.data
  let dp := if s.data dp = 61 then dp + 1 else dp
  let data := data.set8 dp 0
  let r := dropVarFromSet (data.cstr n name) s.vars
  ⟨data, dp + 1, if r.1 then (hdeleteR (data.cstr n name) s.htab).2 else s.htab, r.2⟩

/-- A name with a value; it fails if the name is empty. -/
def importEnter (sep : UInt8) (n name dp : Nat) (s : ImportState) : Bool × ImportState :=
  match parseValue sep n (s.data.set8 dp 0) (dp + 1) (dp + 1) with
  | (data, dp', sp) =>
    let data := data.set8 sp 0
    if data name = 0 then (false, ⟨data, dp' + 1, s.htab, s.vars⟩)
    else
      let r := dropVarFromSet (data.cstr n name) s.vars
      (true, ⟨data, dp' + 1,
        if r.1 then (hsearchR (data.cstr n name) (.enter (data.cstr n (dp + 1))) s.htab).2.2 else s.htab,
        r.2⟩)

/-- One round of the loop of `himport_r`. -/
def importEntry (sep : UInt8) (n : Nat) (s : ImportState) : Bool × ImportState :=
  let name := scan s.data (fun c => !isblank c) n s.dp
  if s.data name = 35 then
    (true, { s with dp := scan s.data (fun c => c == 0 || c == sep) n name + 1 })
  else
    let dp := scan s.data (fun c => c == 61 || c == 0 || c == sep) n name
    if s.data dp = 0 ∨ s.data (dp + 1) = 0 ∨ s.data dp = sep ∨ s.data (dp + 1) = sep then
      (true, importDelete n name dp s)
    else importEnter sep n name dp s

/-- The loop, `k` rounds at most. -/
def importLoop (sep : UInt8) (n size : Nat) : Nat → ImportState → Bool × ImportState
  | 0, s => (true, s)
  | k + 1, s =>
    match importEntry sep n s with
    | (false, s) => (false, s)
    | (true, s) => if s.dp < size ∧ s.data s.dp ≠ 0 then importLoop sep n size k s else (true, s)

/-- The loop that removes carriage returns; it gives how many. -/
def dropCr (size : Nat) : Nat → Mem → Nat → Nat → Mem × Nat
  | 0, m, _, ignored => (m, ignored)
  | k + 1, m, dp, ignored =>
    if dp < size ∧ m dp ≠ 0 then
      if m dp = 13 ∧ dp < size - 1 ∧ m (dp + 1) = 10 then dropCr size k m (dp + 1) (ignored + 1)
      else dropCr size k (m.set8 (dp - ignored) (m dp)) (dp + 1) ignored
    else (m, ignored)

/-- `nent`: `CONFIG_ENV_MIN_ENTRIES + size / 8` as an `int`, at most `CONFIG_ENV_MAX_ENTRIES`. -/
def nent (size : Nat) : Int := min (Int.bmod (64 + size / 8 : Nat) (2 ^ 32)) 512

/-- Model of `himport_r`; `k` bounds the search for a prime. -/
def himportR (k : Nat) (htab : Option Htab) (env : Mem) (size : Nat) (sep : UInt8)
    (noClear crlfIsLf : Bool)
    (vars : List Str) : Bool × Option Htab :=
  let old := if noClear then htab else none
  match old.or (hcreateR k (nent size % 2 ^ 64).toNat) with
  | none => (false, none)
  | some htab =>
    if size = 0 then (true, some htab)
    else
      let data := Mem.zero.copy 0 env 0 size
      let r := if crlfIsLf then dropCr size size data 0 0 else (data, 0)
      match importLoop sep (size + 1) (size - r.2) (size + 1) ⟨r.1, 0, htab, vars.map some⟩ with
      | (false, s) => (false, some s.htab)
      | (true, s) => (true, some ((s.vars.filterMap id).foldl (fun htab v => (hdeleteR v htab).2) s.htab))

/-! ## Reading one entry -/

/-- A key that is read as it is written. -/
structure KeyOk (sep : UInt8) (key : Str) : Prop where
  pos : key ≠ []
  chars : ∀ c ∈ key, c ≠ 61 ∧ c ≠ 0 ∧ c ≠ sep
  first : ∀ c ∈ key.head?, isblank c = false ∧ c ≠ 35

structure DataOk (data : Str) : Prop where
  pos : data ≠ []
  chars : 0 ∉ data

section Entry

variable {m : Mem} {sep : UInt8} {a n : Nat}

theorem scan_eq {stop : UInt8 → Bool} {bs : List UInt8} {c : UInt8} (h : m.Has a (bs ++ [c]))
    (hgo : ∀ b ∈ bs, stop b = false) (hc : stop c = true) (hn : bs.length < n) :
    scan m stop n a = a + bs.length := by
  induction bs generalizing a n with
  | nil =>
    obtain ⟨n, rfl⟩ : ∃ k, n = k + 1 := ⟨n - 1, by rw [List.length_nil] at hn; omega⟩
    rw [List.nil_append, Mem.has_cons] at h
    rw [scan, h.1, if_pos hc]
    rfl
  | cons b bs ih =>
    rw [List.length_cons] at hn
    obtain ⟨n, rfl⟩ : ∃ k, n = k + 1 := ⟨n - 1, by omega⟩
    rw [List.cons_append, Mem.has_cons] at h
    rw [scan, h.1, hgo b (.head _), if_neg (by decide),
      ih h.2 (fun b' hb' => hgo b' (.tail _ hb')) (by omega), List.length_cons]
    omega

theorem escape_cons (c : UInt8) (data : Str) :
    escape sep (c :: data) = (if c = sep ∨ c = 92 then [92, c] else [c]) ++ escape sep data := rfl

/-- A value is moved over its backslashes. The text is behind what is written: `sp ≤ dp`. -/
theorem parseValue_escape (hsep : sep ≠ 92) {data : Str} (h0 : 0 ∉ data) (dp sp : Nat)
    (h : m.Has dp (escape sep data ++ [sep])) (hle : sp ≤ dp) (hn : data.length < n) :
    ∃ m', parseValue sep n m dp sp = (m', dp + (escape sep data).length, sp + data.length) ∧
      m'.Has sp data ∧ (∀ x, x < sp ∨ dp + (escape sep data).length ≤ x → m' x = m x) := by
  induction data generalizing m dp sp n with
  | nil =>
    obtain ⟨n, rfl⟩ : ∃ k, n = k + 1 := ⟨n - 1, by rw [List.length_nil] at hn; omega⟩
    have hend : m dp = sep := ((Mem.has_cons sep).mp h).1
    refine ⟨m, ?_, Mem.has_nil, fun _ _ => rfl⟩
    rw [parseValue, if_pos (.inr hend)]
    rfl
  | cons c data ih =>
    rw [List.length_cons] at hn
    obtain ⟨n, rfl⟩ : ∃ k, n = k + 1 := ⟨n - 1, by omega⟩
    have hc0 : c ≠ 0 := fun hc => h0 (hc ▸ (.head _))
    have hrest0 : 0 ∉ data := fun hmem => h0 (.tail _ hmem)
    rw [escape_cons, List.append_assoc] at h
    -- One round: the character at `dp'`, which may stand behind a backslash, goes to `sp`.
    obtain ⟨dp', hge, hlen, hchar, hround⟩ : ∃ dp', dp ≤ dp' ∧
        dp' + 1 = dp + (if c = sep ∨ c = 92 then [92, c] else [c]).length ∧ m dp' = c ∧
        parseValue sep (n + 1) m dp sp = parseValue sep n (m.set8 sp (m dp')) (dp' + 1) (sp + 1) := by
      by_cases hesc : c = sep ∨ c = 92
      · rw [if_pos hesc, List.cons_append, Mem.has_cons, List.cons_append, Mem.has_cons] at h
        refine ⟨dp + 1, by omega, by rw [if_pos hesc]; rfl, h.2.1, ?_⟩
        have hnext : m (dp + 1) ≠ 0 := by rw [h.2.1]; exact hc0
        rw [parseValue, if_neg]
        · simp only [h.1, ne_eq, hnext, not_false_eq_true, and_self, if_true]
        · rw [h.1, not_or]
          exact ⟨by decide, hsep.symm⟩
      · rw [if_neg hesc, List.cons_append, Mem.has_cons] at h
        rw [not_or] at hesc
        refine ⟨dp, le_refl _, by rw [if_neg (not_or.mpr hesc)]; rfl, h.1, ?_⟩
        rw [parseValue, if_neg]
        · simp only [h.1, hesc.2, false_and, if_false]
        · rw [h.1, not_or]
          exact ⟨hc0, hesc.1⟩
    have hrest : m.Has (dp' + 1) (escape sep data ++ [sep]) := by
      rw [Mem.has_append] at h
      rw [hlen]
      exact h.2
    obtain ⟨m', hrun, hdata, hframe⟩ := ih (m := m.set8 sp (m dp')) (n := n) hrest0
      (dp' + 1) (sp + 1) (hrest.congr fun i _ => by rw [Mem.set8_apply, if_neg (by omega)]) (by omega)
      (by omega)
    refine ⟨m', ?_, ?_, ?_⟩
    · rw [hround, hrun, escape_cons, List.length_append, List.length_cons]
      congr 2 <;> omega
    · rw [Mem.has_cons]
      refine ⟨?_, hdata⟩
      rw [hframe sp (.inl (by omega)), Mem.set8_apply, if_pos rfl, hchar]
    · intro x hx
      rw [escape_cons, List.length_append] at hx
      rw [hframe x (by omega), Mem.set8_apply, if_neg (by omega)]

theorem escape_head {data : Str} (hsep : sep ≠ 92) (hdata : DataOk data) :
    ∃ c rest, escape sep data = c :: rest ∧ c ≠ 0 ∧ c ≠ sep := by
  obtain ⟨hpos, h0⟩ := hdata
  cases data with
  | nil => exact absurd rfl hpos
  | cons c data =>
    have hc0 : c ≠ 0 := fun hc => h0 (hc ▸ (.head _))
    rw [escape_cons]
    split
    · exact ⟨92, _, rfl, by decide, hsep.symm⟩
    · next hesc =>
        rw [not_or] at hesc
        exact ⟨c, _, rfl, hc0, hesc.1⟩

theorem length_le_escape (sep : UInt8) (data : Str) : data.length ≤ (escape sep data).length := by
  induction data with
  | nil => exact le_rfl
  | cons c data ih =>
    rw [escape_cons, List.length_append, List.length_cons]
    split <;> simp only [List.length_cons, List.length_nil] <;> omega

/-- A round of the import reads one entry and enters it. -/
theorem importEntry_text (key data : Str) {s : ImportState} (hsep : sep = 0 ∨ sep = 10)
    (hkey : KeyOk sep key) (hdata : DataOk data) (hvars : s.vars = [])
    (h : s.data.Has s.dp (entryText sep (key, data))) (hn : (entryText sep (key, data)).length ≤ n) :
    ∃ m', importEntry sep n s = (true, ⟨m', s.dp + (entryText sep (key, data)).length,
        (hsearchR key (.enter data) s.htab).2.2, []⟩) ∧
      ∀ x, s.dp + (entryText sep (key, data)).length ≤ x → m' x = s.data x := by
  have hsep92 : sep ≠ 92 := by rcases hsep with rfl | rfl <;> decide
  have hsep61 : (61 : UInt8) ≠ sep := by rcases hsep with rfl | rfl <;> decide
  have hlen : (entryText sep (key, data)).length = key.length + 1 + (escape sep data).length + 1 := by
    simp only [entryText, List.length_append, List.length_singleton]
  have hshort := length_le_escape sep data
  rw [hlen] at hn ⊢
  unfold entryText at h
  rw [List.append_assoc (key ++ [61]), Mem.has_append, List.length_append, List.length_singleton] at h
  obtain ⟨hname, hvalue⟩ := h
  -- The name starts where the entry starts, and ends at the equals sign.
  obtain ⟨c, key', rfl⟩ := List.exists_cons_of_ne_nil hkey.pos
  obtain ⟨hblank, hhash⟩ := hkey.first c rfl
  have hfirst : s.data s.dp = c := ((Mem.has_cons c).mp hname).1
  have hstart : scan s.data (fun c => !isblank c) n s.dp = s.dp := by
    obtain ⟨n, rfl⟩ : ∃ k, n = k + 1 := ⟨n - 1, by omega⟩
    rw [scan, hfirst, hblank]
    rfl
  have hend : scan s.data (fun c => c == 61 || c == 0 || c == sep) n s.dp = s.dp + (c :: key').length := by
    refine scan_eq hname (fun b hb => ?_) rfl (by omega)
    obtain ⟨h61, h0, hs⟩ := hkey.chars b hb
    simp [h61, h0, hs]
  have heq : s.data (s.dp + (c :: key').length) = 61 :=
    ((Mem.has_cons 61).mp (Mem.has_append.mp hname).2).1
  obtain ⟨b, rest, hesc, hb0, hbsep⟩ := escape_head hsep92 hdata
  have hnext : s.data (s.dp + (c :: key').length + 1) = b := by
    rw [hesc, List.cons_append] at hvalue
    exact ((Mem.has_cons b).mp hvalue).1
  -- The value is read behind the terminator of the name.
  obtain ⟨m', hparse, hvalue', hframe⟩ := parseValue_escape (m := s.data.set8 (s.dp + (c :: key').length) 0)
    (n := n) hsep92 hdata.chars (s.dp + (c :: key').length + 1) (s.dp + (c :: key').length + 1)
    (hvalue.congr fun i _ => by rw [Mem.set8_apply, if_neg (by omega)]) le_rfl (by omega)
  have hkeep : ∀ i < (c :: key').length,
      (m'.set8 (s.dp + (c :: key').length + 1 + data.length) 0) (s.dp + i) = s.data (s.dp + i) := by
    intro i hi
    rw [Mem.set8_apply, if_neg (by omega), hframe _ (.inl (by omega)), Mem.set8_apply,
      if_neg (by omega)]
  have hkeyStr : (m'.set8 (s.dp + (c :: key').length + 1 + data.length) 0).cstr n s.dp = c :: key' := by
    apply Mem.cstr_eq
    · exact fun hmem => (hkey.chars 0 hmem).2.1 rfl
    · omega
    · intro i hi
      rw [hkeep i hi]
      exact Mem.has_iff.mp (Mem.has_append.mp hname).1 i hi
    · rw [Mem.set8_apply, if_neg (by omega), hframe _ (.inl (by omega)), Mem.set8_apply, if_pos rfl]
  have hdataStr : (m'.set8 (s.dp + (c :: key').length + 1 + data.length) 0).cstr n
      (s.dp + (c :: key').length + 1) = data := by
    apply Mem.cstr_eq
    · exact hdata.chars
    · omega
    · intro i hi
      rw [Mem.set8_apply, if_neg (by omega)]
      exact Mem.has_iff.mp hvalue' i hi
    · rw [Mem.set8_apply, if_pos rfl]
  have hchar : (m'.set8 (s.dp + (c :: key').length + 1 + data.length) 0) s.dp ≠ 0 := by
    have hzero := hkeep 0 (Nat.succ_pos _)
    simp only [Nat.add_zero] at hzero
    rw [hzero, hfirst]
    exact (hkey.chars c (.head _)).2.1
  have hdp : s.dp + (c :: key').length + 1 + (escape sep data).length + 1
      = s.dp + ((c :: key').length + 1 + (escape sep data).length + 1) := by omega
  refine ⟨m'.set8 (s.dp + (c :: key').length + 1 + data.length) 0, ?_, ?_⟩
  · simp only [importEntry, hstart, hend]
    rw [if_neg (by rw [hfirst]; exact hhash), if_neg, importEnter, hparse]
    · simp only [hkeyStr, hdataStr, if_neg hchar, hvars, dropVarFromSet, if_true, hdp]
    · rw [heq, hnext]
      simp [hb0, hbsep, hsep61]
  · intro x hx
    rw [Mem.set8_apply, if_neg (by omega), hframe x (.inr (by omega)), Mem.set8_apply,
      if_neg (by omega)]

theorem length_le_exportText (sep : UInt8) (ps : List (Str × Str)) :
    ps.length ≤ (exportText sep ps).length := by
  induction ps with
  | nil => exact le_rfl
  | cons p ps ih =>
    rw [exportText, List.flatMap_cons, ← exportText, List.length_append, List.length_cons]
    simp only [entryText, List.length_append, List.length_singleton]
    omega

/-- What a round does with the table. -/
def enterPair (htab : Htab) (p : Str × Str) : Htab := (hsearchR p.1 (.enter p.2) htab).2.2

/-- The loop reads entry after entry, up to the terminator. -/
theorem importLoop_text (hsep : sep = 0 ∨ sep = 10) {ps : List (Str × Str)} (hne : ps ≠ [])
    (hok : ∀ p ∈ ps, KeyOk sep p.1 ∧ DataOk p.2) (size : Nat) (s : ImportState)
    (hvars : s.vars = []) (h : s.data.Has s.dp (exportText sep ps ++ [0]))
    (hn : (exportText sep ps).length ≤ n)
    (hsize : s.dp + (exportText sep ps).length < size) (k : Nat) (hk : ps.length ≤ k) :
    ∃ m dp, importLoop sep n size k s = (true, ⟨m, dp, ps.foldl enterPair s.htab, []⟩) := by
  induction ps generalizing s k with
  | nil => exact absurd rfl hne
  | cons p ps ih =>
    obtain ⟨key, data⟩ := p
    have hcons : exportText sep ((key, data) :: ps)
        = entryText sep (key, data) ++ exportText sep ps := rfl
    rw [hcons, List.length_append] at hn hsize
    rw [hcons, List.append_assoc, Mem.has_append] at h
    rw [List.length_cons] at hk
    obtain ⟨k, rfl⟩ : ∃ k', k = k' + 1 := ⟨k - 1, by omega⟩
    obtain ⟨hkey, hdata⟩ := hok (key, data) (.head _)
    obtain ⟨m, hround, hkeep⟩ := importEntry_text key data hsep hkey hdata hvars h.1 (n := n)
      (by omega)
    have hrest : m.Has (s.dp + (entryText sep (key, data)).length) (exportText sep ps ++ [0]) :=
      h.2.congr fun i _ => hkeep _ (by omega)
    rw [importLoop, hround]
    dsimp only
    cases ps with
    | nil =>
      have hend : m (s.dp + (entryText sep (key, data)).length) = 0 := ((Mem.has_cons 0).mp hrest).1
      refine ⟨m, s.dp + (entryText sep (key, data)).length, ?_⟩
      rw [if_neg (fun hgo => hgo.2 hend)]
      rfl
    | cons q ps =>
      obtain ⟨hqkey, -⟩ := hok q (.tail _ (.head _))
      obtain ⟨c, rest, hkeyq⟩ := List.exists_cons_of_ne_nil hqkey.pos
      have hfirst : m (s.dp + (entryText sep (key, data)).length) = c := by
        simp only [exportText, List.flatMap_cons, entryText, hkeyq, List.cons_append] at hrest
        exact ((Mem.has_cons c).mp hrest).1
      have hc0 : c ≠ 0 := (hqkey.chars c (by rw [hkeyq]; exact .head _)).2.1
      rw [if_pos ⟨by omega, by rw [hfirst]; exact hc0⟩]
      exact ih nofun (fun r hr => hok r (.tail _ hr)) _ rfl hrest
        (by omega) (by dsimp only; omega) k (by omega)

end Entry

/-! ## The entries of a table -/

section Entries

variable {htab : Htab} {key data : Str}

theorem mem_entries (hok : Sound htab) :
    (key, data) ∈ entries htab ↔ findData key htab = some data := by
  rw [findData_eq_some_iff hok]
  unfold entries
  rw [List.mem_filterMap]
  constructor
  · rintro ⟨i, -, hi⟩
    split at hi
    · next key' e hslot =>
        obtain ⟨rfl, rfl⟩ := Prod.mk.inj (Option.some.inj hi)
        exact ⟨i, by rw [hslot, ← hok.used _ _ _ hslot]⟩
    · cases hi
  · rintro ⟨i, hslot⟩
    obtain ⟨j, hj, hpath, -⟩ := hok.ok.reach i key _ hslot
    have hrange := path_slot key hok.sizeOk hj
    rw [hpath] at hrange
    refine ⟨i, List.mem_range'_1.mpr ⟨hrange.1, by omega⟩, ?_⟩
    rw [hslot]

theorem nodup_entries (hok : Sound htab) : ((entries htab).map Prod.fst).Nodup := by
  unfold entries
  rw [List.map_filterMap]
  refine List.Nodup.filterMap (fun i j key hi hj => ?_) List.nodup_range'
  rw [Option.mem_def, Option.map_eq_some_iff] at hi hj
  obtain ⟨p, hp, rfl⟩ := hi
  obtain ⟨q, hq, hkeys⟩ := hj
  split at hp
  · next key' e hi =>
      split at hq
      · next key'' e' hj =>
          obtain rfl := Option.some.inj hp
          obtain rfl := Option.some.inj hq
          subst hkeys
          exact hok.ok.unique i j _ _ _ hi hj
      · cases hq
  · cases hp

theorem sorted_perm (htab : Htab) : (sorted htab).Perm (entries htab) := List.mergeSort_perm _ _

end Entries

/-! ## Entering into a new table -/

section Fresh

variable {htab : Htab}

/-- A consistent table from which nothing was deleted. -/
structure Growing (htab : Htab) : Prop extends Consistent htab where
  kept : ∀ i, htab.table i ≠ .deleted

theorem Growing.hasRoom (h : Growing htab) (hlt : htab.filled < htab.size) (key : Str) :
    HasRoom htab key := by
  have hnotFull : ¬ count htab.size htab.table = htab.size := by
    rw [← h.filled]
    omega
  rw [count_eq_iff] at hnotFull
  push Not at hnotFull
  obtain ⟨i, h1, hn, hdead⟩ := hnotFull
  refine .inr (.inl ⟨i, Finset.mem_Icc.mpr ⟨h1, hn⟩, ?_⟩)
  cases hs : htab.table i with
  | free => rfl
  | deleted => exact absurd hs (h.kept i)
  | live key e => rw [hs] at hdead; exact absurd rfl hdead

/-- A table that is not full takes an entry. -/
theorem Growing.enterPair (h : Growing htab) (hlt : htab.filled < htab.size) (p : Str × Str) :
    Growing (enterPair htab p) ∧ (HashTable.enterPair htab p).size = htab.size ∧
    (HashTable.enterPair htab p).filled ≤ htab.filled + 1 ∧
    ∀ key, findData key (HashTable.enterPair htab p) = if key = p.1 then some p.2 else findData key htab := by
  obtain ⟨hok, heffect⟩ := enter_spec p.2 h.toConsistent (h.hasRoom hlt p.1)
  have hkept : ∀ {i filled}, ∀ j, (htab.put p.1 p.2 i filled).table j ≠ .deleted := by
    intro i filled j
    simp only [Htab.put, Function.update_apply]
    split
    · intro hdeleted
      cases hdeleted
    · exact h.kept j
  unfold HashTable.enterPair
  rcases enter_cases h.toConsistent p.1 p.2 with ⟨t, e, ht, -, -, -, hrun⟩ |
    ⟨-, -, ⟨hfull, -⟩ | ⟨-, t, ht, -, hrun, -⟩⟩
  · have hpos := (path_slot p.1 h.sizeOk ht).1
    rw [hrun] at hok heffect ⊢
    rw [if_neg (by dsimp only; omega)] at heffect
    exact ⟨⟨hok, hkept⟩, rfl, Nat.le_succ _, heffect⟩
  · omega
  · rw [hrun] at hok heffect ⊢
    rw [if_neg one_ne_zero] at heffect
    exact ⟨⟨hok, hkept⟩, rfl, le_refl _, heffect⟩

/-- Entering entries with different keys into a table with room for them. -/
theorem Growing.enterAll (h : Growing htab) {ps : List (Str × Str)} (hnodup : (ps.map Prod.fst).Nodup)
    (hroom : htab.filled + ps.length ≤ htab.size) :
    Growing (ps.foldl HashTable.enterPair htab) ∧
    ∀ key data, findData key (ps.foldl HashTable.enterPair htab) = some data ↔
      (key, data) ∈ ps ∨ (key ∉ ps.map Prod.fst ∧ findData key htab = some data) := by
  induction ps generalizing htab with
  | nil => exact ⟨h, fun key data => by simp⟩
  | cons p ps ih =>
    rw [List.length_cons] at hroom
    rw [List.map_cons, List.nodup_cons] at hnodup
    obtain ⟨hgrow, hsize, hfilled, heffect⟩ := h.enterPair (by omega) p
    obtain ⟨hall, hfind⟩ := ih hgrow hnodup.2 (by omega)
    refine ⟨hall, fun key data => ?_⟩
    rw [List.foldl_cons, hfind, heffect, List.mem_cons, List.map_cons, List.mem_cons, not_or]
    constructor
    · rintro (hmem | ⟨hnot, hdata⟩)
      · exact .inl (.inr hmem)
      · split at hdata
        · next heq =>
            left
            left
            rw [heq, ← Option.some.inj hdata]
        · next hne => exact .inr ⟨⟨hne, hnot⟩, hdata⟩
    · rintro ((rfl | hmem) | ⟨⟨hne, hnot⟩, hdata⟩)
      · exact .inr ⟨hnodup.1, if_pos rfl⟩
      · exact .inl hmem
      · exact .inr ⟨hnot, by rw [if_neg hne]; exact hdata⟩

theorem nextPrime_mono {k k' nel size : Nat} (hk : k ≤ k') (h : nextPrime k nel = some size) :
    nextPrime k' nel = some size := by
  induction k generalizing nel k' with
  | zero => exact absurd h (by simp [nextPrime])
  | succ k ih =>
    obtain ⟨k', rfl⟩ : ∃ j, k' = j + 1 := ⟨k' - 1, by omega⟩
    rw [nextPrime] at h ⊢
    split
    · next hprime => rwa [if_pos hprime] at h
    · next hcomp =>
        rw [if_neg hcomp] at h
        exact ih (by omega) h

/-- A table for at most 512 entries is created within 16 rounds. -/
theorem hcreateR_small {k : Nat} (nel : Nat) (hnel : nel ≤ 512) (hk : 16 ≤ k) :
    ∃ htab, hcreateR k nel = some htab ∧ nel ≤ htab.size ∧ Growing htab ∧
      htab.filled = 0 ∧ ∀ key, findData key htab = none := by
  have hall : ∀ nel : Fin 513, (nextPrime 16 (nel.val ||| 1)).any
      (fun size => decide (nel.val ≤ size ∧ size < 600)) = true := by decide +kernel
  obtain ⟨size, hsize, hone⟩ := (Option.any_eq_true _ _).mp (hall ⟨nel, by omega⟩)
  obtain ⟨hle, hlt⟩ := of_decide_eq_true hone
  have hcreate : hcreateR k nel = some ⟨size % 2 ^ 32, 0, fun _ => .free⟩ := by
    rw [hcreateR, nextPrime_mono hk hsize]
    rfl
  obtain ⟨hok, hfind⟩ := faithful_start hcreate
  refine ⟨_, hcreate, ?_, ⟨hok, fun i => by simp⟩, rfl, fun key => hfind key⟩
  dsimp only at hle ⊢
  omega

end Fresh

/-! ## Round trip -/

/-- The pairs of keys and values in a table. -/
def pairs (htab : Htab) : Set (Str × Str) :=
  {p | ∃ i e, htab.table i = .live p.1 e ∧ e.data = p.2}

theorem mem_pairs {htab : Htab} (hok : Sound htab) (p : Str × Str) :
    p ∈ pairs htab ↔ findData p.1 htab = some p.2 := by
  rw [findData_eq_some_iff hok]
  constructor
  · rintro ⟨i, e, hslot, hdata⟩
    exact ⟨i, by rw [hslot, ← hok.used _ _ _ hslot, ← hdata]⟩
  · rintro ⟨i, hslot⟩
    exact ⟨i, _, hslot, rfl⟩

/-- An empty text: the one round reads a name that is empty, and deletes nothing. -/
theorem importLoop_empty (sep : UInt8) (n size k : Nat) (s : ImportState) (hvars : s.vars = [])
    (hzero : s.data = Mem.zero) (hok : Consistent s.htab) (hempty : ∀ key, findData key s.htab = none)
    (hn : 0 < n) :
    ∃ s', importLoop sep n size (k + 1) s = (true, s') ∧ s'.vars = [] ∧ Consistent s'.htab ∧
      ∀ key, findData key s'.htab = none := by
  obtain ⟨n, rfl⟩ : ∃ j, n = j + 1 := ⟨n - 1, by omega⟩
  obtain ⟨hdelete, hfind⟩ := delete_spec hok []
  have hbyte : ∀ a, Mem.zero a = 0 := fun a => rfl
  have hset : ∀ a : Nat, (Mem.zero : Mem).set8 a 0 = Mem.zero := by
    intro a
    funext x
    rw [Mem.set8_apply]
    split <;> rfl
  have hround : importEntry sep (n + 1) s = (true, ⟨Mem.zero, s.dp + 1, (hdeleteR [] s.htab).2, []⟩) := by
    simp [importEntry, scan, hzero, hbyte, isblank, importDelete, hset, hvars, dropVarFromSet,
      Mem.cstr]
  refine ⟨⟨Mem.zero, s.dp + 1, (hdeleteR [] s.htab).2, []⟩, ?_, rfl, hdelete, fun key => ?_⟩
  · rw [importLoop, hround]
    dsimp only
    rw [if_neg (fun h => h.2 rfl)]
  · rw [hfind, hempty]
    exact ite_self _

/-- **Export and import.** A table with keys and values that can be told apart in the text is
    imported as it was exported, with either separator, whenever the text fits in the buffer and the
    entries in the table that the import creates. -/
theorem himportR_hexportR {htab : Htab} (hok : Sound htab) {sep : UInt8} (hsep : sep = 0 ∨ sep = 10)
    (hchars : ∀ p ∈ pairs htab, KeyOk sep p.1 ∧ DataOk p.2) {size₀ size : Nat} {buf : Mem}
    (hexport : hexportR htab sep size₀ = some (size, buf))
    (hfits : (exportText sep (sorted htab)).length + 1 ≤ size)
    (hcount : ((entries htab).length : Int) ≤ nent size) {k : Nat} (hk : 16 ≤ k) (old : Option Htab) :
    ∃ htab', himportR k old buf size sep false false [] = (true, some htab') ∧ pairs htab' = pairs htab := by
  have hbuf : buf = Mem.zero.store 0 (exportText sep (sorted htab) ++ [0]) := by
    simp only [hexportR, Option.ite_none_left_eq_some, Option.some.injEq, Prod.mk.injEq] at hexport
    exact hexport.2.2.symm
  have hdata : (Mem.zero.copy 0 buf 0 size).Has 0 (exportText sep (sorted htab) ++ [0]) := by
    apply Mem.Has.copy
    · rw [Mem.has_iff]
      intro i hi
      rw [hbuf]
      exact Mem.store_apply_in _ _ _ _ hi
    · rw [List.length_append]
      exact hfits
  -- The table that is created has room for the entries.
  have hnent : nent size ≤ 512 := min_le_right _ _
  obtain ⟨new, hcreate, hroom, hgrow, hfilled, hempty⟩ :=
    hcreateR_small (nent size % 2 ^ 64).toNat (by omega) hk
  have hperm := sorted_perm htab
  have hmem : ∀ p, p ∈ sorted htab ↔ findData p.1 htab = some p.2 := fun p => by
    rw [hperm.mem_iff]
    exact mem_entries hok
  have hlen : (sorted htab).length = (entries htab).length := hperm.length_eq
  unfold himportR
  simp only [Bool.false_eq_true, if_false, Option.none_or, hcreate, List.map_nil]
  rw [if_neg (by omega)]
  by_cases hnil : sorted htab = []
  · have hzero : Mem.zero.copy 0 buf 0 size = Mem.zero := by
      funext x
      rw [hbuf, hnil]
      simp [Mem.copy, Mem.store, Mem.zero, exportText]
    obtain ⟨s, hrun, hvars, hnew, hnone⟩ := importLoop_empty sep (size + 1) size size
      ⟨Mem.zero, 0, new, []⟩ rfl rfl hgrow.toConsistent hempty (by omega)
    rw [hzero, Nat.sub_zero, hrun]
    dsimp only
    rw [hvars]
    refine ⟨s.htab, rfl, ?_⟩
    ext p
    rw [mem_pairs hnew.toSound, mem_pairs hok, hnone, ← hmem, hnil]
    simp
  · have hshort := length_le_exportText sep (sorted htab)
    obtain ⟨m, dp, hrun⟩ := importLoop_text (n := size + 1) hsep hnil
      (fun p hp => hchars p ((mem_pairs hok p).mpr ((hmem p).mp hp))) size
      ⟨Mem.zero.copy 0 buf 0 size, 0, new, []⟩ rfl hdata
      (by omega) (by dsimp only; omega) (size + 1) (by omega)
    obtain ⟨hall, hfind⟩ := hgrow.enterAll
      ((hperm.map Prod.fst).nodup_iff.mpr (nodup_entries hok)) (by omega)
    rw [Nat.sub_zero, hrun]
    refine ⟨(sorted htab).foldl enterPair new, rfl, ?_⟩
    ext p
    rw [mem_pairs hall.toSound, mem_pairs hok, ← hmem, hfind, hempty]
    simp

/-- A table with two values, one of them of a backslash and a line feed. -/
def twoValues : Session := [Op.enter [97] [92, 10], .enter [98] [99]].foldl step ⟨fiveSlots, []⟩

theorem himportR_hexportR_twoValues :
    ∃ buf htab', hexportR twoValues.htab 10 0 = some (16, buf) ∧
      himportR 16 none buf 16 10 false false [] = (true, some htab') ∧
      pairs htab' = pairs twoValues.htab := by
  have hstart := faithful_start (show hcreateR 1 5 = some fiveSlots from rfl)
  have hok : Consistent twoValues.htab :=
    (faithful_step _ (.enter [98] [99]) (faithful_step _ (.enter [97] [92, 10]) hstart (by decide))
      (by decide)).1
  have hentries : entries twoValues.htab = [([97], [92, 10]), ([98], [99])] := rfl
  have hlen : (exportText 10 (sorted twoValues.htab)).length = 11 :=
    ((sorted_perm twoValues.htab).flatMap_right _).length_eq
  have hchars : ∀ p ∈ entries twoValues.htab, KeyOk 10 p.1 ∧ DataOk p.2 := by
    rw [hentries, List.forall_mem_cons, List.forall_mem_singleton]
    exact ⟨⟨⟨by decide, by decide +kernel, by decide +kernel⟩, ⟨by decide, by decide⟩⟩,
      ⟨⟨by decide, by decide +kernel, by decide +kernel⟩, ⟨by decide, by decide⟩⟩⟩
  obtain ⟨htab', hrun, hpairs⟩ := himportR_hexportR hok.toSound (.inr rfl)
    (fun p hp => hchars p ((mem_entries hok.toSound).mpr ((mem_pairs hok.toSound p).mp hp)))
    (show hexportR twoValues.htab 10 0 = some (16, _) from rfl) (by rw [hlen]; decide)
    (by rw [hentries]; decide) le_rfl none
  exact ⟨_, htab', rfl, hrun, hpairs⟩

end HashTable
